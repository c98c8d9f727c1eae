import Db8.Lib.BinTree
import Db8.Lib.LexOrder
import Db8.Lib.SortedSet

/-!
# Core.MojRbTreeBase

The ordered trees behind `MojSet` and `MojMap`: what reads them node by node.

* `Store`          — the tree of each `Impl`, in order of the keys.
* `compare`, `diff` — two trees walked side by side with `successor`.
* `lowerBound`, `upperBound` — where a search ends, or the node behind it.
* `walks_spec`     — what they compute, for trees of any size and shape.
-/

namespace Db8

open Lib
open Lib.BinTree hiding nil node

/-- What the nodes hold, and the keys they are ordered by: for a `MojSet` the values are their own
keys, for a `MojMap` an entry is compared by its key first. -/
class MojRbNode (α κ : Type*) [LinearOrder α] [LinearOrder κ] where
  key : α → κ
  lt_of_key_lt : ∀ {x y : α}, key x < key y → x < y

instance MojRbNode.set {κ : Type*} [LinearOrder κ] : MojRbNode κ κ := ⟨id, fun h => h⟩

instance MojRbNode.map {κ ν : Type*} [LinearOrder κ] [LinearOrder ν] : MojRbNode (κ ×ₗ ν) κ :=
  ⟨fun e => (ofLex e).1, fun h => Prod.Lex.lt_iff.mpr (.inl h)⟩

/-- `m_impl`: `NULL`, or the address of an `Impl`, which several trees may share. -/
abbrev MojRbTreeBase := Option Nat

namespace MojRbTreeBase

open MojRbNode (key)

section Walk

variable {α : Type*}

def successor (node : Loc α) : Option (Loc α) := node.next .right

/-- What is left of a walk. -/
def from? : Option (Loc α) → List α
  | none => []
  | some node => node.item :: node.rest

theorem from?_successor (node : Loc α) : from? (successor node) = node.rest := by
  rw [rest_eq node]
  cases h : node.next .right <;> simp [successor, h, from?]

theorem length_successor (node : Loc α) : (from? (successor node)).length < (from? (some node)).length := by
  rw [from?_successor]
  exact Nat.lt_succ_self _

/-- The first element with a property: there is none, or a node of the tree holds it and the
elements before that node do not have the property. -/
def IsFirst (p : α → Prop) (xs : List α) : Option (Loc α) → Prop
  | none => ∀ x ∈ xs, ¬ p x
  | some node => node.items = xs ∧ p node.item ∧ ∀ x ∈ node.before, ¬ p x

/-- If an element and all before it lack the property and all behind it have it, the successor is first. -/
theorem isFirst_successor {p : α → Prop} {node : Loc α} {xs : List α} (hitems : node.items = xs)
    (hbefore : ∀ x ∈ node.before, ¬ p x) (hself : ¬ p node.item) (hrest : ∀ x ∈ node.rest, p x) :
    IsFirst p xs (successor node) := by
  have hnext := rest_next node
  unfold successor
  cases h : node.next .right with
  | none =>
    rw [h] at hnext
    subst hitems
    intro x hx
    rw [Loc.items, hnext] at hx
    rcases List.mem_append.mp hx with hx | hx
    exacts [hbefore x hx, List.mem_singleton.mp hx ▸ hself]
  | some n =>
    rw [h] at hnext
    refine ⟨(Loc.items_next h).trans hitems, hrest _ (hnext.1 ▸ List.mem_cons_self), fun x hx => ?_⟩
    rw [hnext.2] at hx
    rcases List.mem_append.mp hx with hx | hx
    exacts [hbefore x hx, List.mem_singleton.mp hx ▸ hself]

end Walk

variable {α κ : Type*} [LinearOrder α] [LinearOrder κ] [MojRbNode α κ]

/-- The tree of each `Impl`; its keys increase from left to right. -/
structure Store (α κ : Type*) [LinearOrder α] [LinearOrder κ] [MojRbNode α κ] where
  root : Nat → BinTree α
  ordered : ∀ impl, (inorder (root impl)).Pairwise fun x y => (key x : κ) < key y

def compareFull (node1 node2 : Loc α) : Ordering := cmp node1.item node2.item

def compareKey (k : κ) (x : α) : Ordering := cmp (key x) k

def begin (s : Store α κ) (t : MojRbTreeBase) : Option (Loc α) := t.bind fun impl => first (s.root impl)

/-! ## Two trees side by side -/

def compareLoop : Option (Loc α) → Option (Loc α) → Ordering
  | none, none => .eq
  | none, some _ => .lt
  | some _, none => .gt
  | some node, some compNode =>
    match compareFull node compNode with
    | .eq => compareLoop (successor node) (successor compNode)
    | o => o
termination_by node => (from? node).length
decreasing_by exact length_successor node

def compare (s : Store α κ) (t comp : MojRbTreeBase) : Ordering :=
  if t = comp then .eq else compareLoop (begin s t) (begin s comp)

/-- The nodes that `diff` clones, in the order in which it puts them into `diffOut`. -/
def diffLoop : Option (Loc α) → Option (Loc α) → List α
  | none, _ => []
  | some node, none => node.item :: diffLoop (successor node) none
  | some node, some compNode =>
    match compareFull node compNode with
    | .lt => node.item :: diffLoop (successor node) (some compNode)
    | .eq => diffLoop (successor node) (successor compNode)
    | .gt => diffLoop (some node) (successor compNode)
termination_by node compNode => (from? node).length + (from? compNode).length
decreasing_by
  all_goals
    have hnode := length_successor node
    try have hcomp := length_successor compNode
    omega

/-- `diffOut` is cleared first. -/
def diff (s : Store α κ) (t tree : MojRbTreeBase) : SortedSet α :=
  SortedSet.empty.putAll (diffLoop (begin s t) (begin s tree))

/-! ## Searching -/

/-- The node where the search ends and the last comparison; `none` for a tree without nodes. -/
def search (s : Store α κ) (t : MojRbTreeBase) (k : κ) : Option (Loc α × Ordering) :=
  t.bind fun impl => seek (compareKey k) (s.root impl) []

def lowerBound (s : Store α κ) (t : MojRbTreeBase) (k : κ) : Option (Loc α) :=
  match search s t k with
  | none => none
  | some (node, comp) => if comp ≠ .lt then some node else successor node

def upperBound (s : Store α κ) (t : MojRbTreeBase) (k : κ) : Option (Loc α) :=
  match search s t k with
  | none => none
  | some (node, comp) => if comp = .gt then some node else successor node

/-! ## What they compute -/

/-- The elements of a tree in order. -/
def elems (s : Store α κ) (t : MojRbTreeBase) : List α := t.elim [] fun impl => inorder (s.root impl)

theorem from?_begin (s : Store α κ) (t : MojRbTreeBase) : from? (begin s t) = elems s t := by
  cases t with
  | none => rfl
  | some impl =>
    change from? (first (s.root impl)) = inorder (s.root impl)
    rw [inorder_eq]
    cases first (s.root impl) <;> rfl

theorem key_sorted (s : Store α κ) (t : MojRbTreeBase) :
    (elems s t).Pairwise fun x y => (key x : κ) < key y := by
  cases t with
  | none => exact List.Pairwise.nil
  | some impl => exact s.ordered impl

theorem elems_sorted (s : Store α κ) (t : MojRbTreeBase) : (elems s t).Pairwise (· < ·) :=
  (key_sorted s t).imp MojRbNode.lt_of_key_lt

theorem compareLoop_eq (node compNode : Option (Loc α)) :
    compareLoop node compNode = lexCompare (from? node) (from? compNode) := by
  fun_induction compareLoop node compNode with
  | case1 => rfl
  | case2 => rfl
  | case3 => rfl
  | case4 node compNode heq ih =>
    rw [ih, from?_successor, from?_successor, from?, from?, lexCompare_cons_cons]
    rw [compareFull] at heq
    rw [heq, Ordering.then]
  | case5 node compNode hne =>
    rw [from?, from?, lexCompare_cons_cons]
    change compareFull node compNode = (compareFull node compNode).then _
    cases h : compareFull node compNode with
    | eq => exact (hne h).elim
    | lt => rfl
    | gt => rfl

/-- `compare` is the lexicographic order of the elements. -/
theorem compare_eq (s : Store α κ) (t comp : MojRbTreeBase) :
    compare s t comp = lexCompare (elems s t) (elems s comp) := by
  unfold compare
  split_ifs with h
  · rw [h, lexCompare_eq_eq.mpr rfl]
  · rw [compareLoop_eq, from?_begin, from?_begin]

/-- The walk puts what is left of the first tree and not of the second. An element that the second
walk has passed is below all that is left of the first. -/
theorem diffLoop_eq (node compNode : Option (Loc α)) (hnode : (from? node).Pairwise (· < ·))
    (hcomp : (from? compNode).Pairwise (· < ·)) :
    diffLoop node compNode = (from? node).filter fun x => decide (x ∉ from? compNode) := by
  fun_induction diffLoop node compNode with
  | case1 => rfl
  | case2 node ih =>
    have hrest := List.pairwise_cons.mp hnode
    rw [ih (by rw [from?_successor]; exact hrest.2) hcomp, from?_successor]
    simp [from?]
  | case3 node compNode hlt ih =>
    have hrest := List.pairwise_cons.mp hnode
    have hlt' : node.item < compNode.item := (cmp_eq_lt_iff _ _).mp hlt
    have hnot : node.item ∉ from? (some compNode) := by
      intro hmem
      rcases List.mem_cons.mp hmem with heq | hmem
      · exact hlt'.ne heq
      · exact (hlt'.trans ((List.pairwise_cons.mp hcomp).1 _ hmem)).ne rfl
    rw [ih (by rw [from?_successor]; exact hrest.2) hcomp, from?_successor]
    rw [show from? (some node) = node.item :: node.rest from rfl, List.filter_cons_of_pos (by simpa using hnot)]
  | case4 node compNode heq ih =>
    obtain ⟨hfirst, hrest⟩ := List.pairwise_cons.mp hnode
    have heq' : node.item = compNode.item := (cmp_eq_eq_iff _ _).mp heq
    have hcomp' := (List.pairwise_cons.mp hcomp).2
    rw [ih (by rw [from?_successor]; exact hrest) (by rw [from?_successor]; exact hcomp'),
      from?_successor, from?_successor]
    rw [show from? (some node) = node.item :: node.rest from rfl,
      show from? (some compNode) = compNode.item :: compNode.rest from rfl,
      List.filter_cons_of_neg (by simp [heq'])]
    refine List.filter_congr fun x hx => ?_
    have hne : x ≠ compNode.item := heq' ▸ (hfirst x hx).ne'
    simp [hne]
  | case5 node compNode hgt ih =>
    have hgt' : compNode.item < node.item := (cmp_eq_gt_iff _ _).mp hgt
    have hcomp' := (List.pairwise_cons.mp hcomp).2
    rw [ih hnode (by rw [from?_successor]; exact hcomp'), from?_successor]
    refine List.filter_congr fun x hx => ?_
    have hle : node.item ≤ x := by
      rcases List.mem_cons.mp hx with rfl | hx
      exacts [le_refl _, ((List.pairwise_cons.mp hnode).1 x hx).le]
    have hne : x ≠ compNode.item := (hgt'.trans_le hle).ne'
    simp [from?, hne]

theorem diffLoop_begin (s : Store α κ) (t tree : MojRbTreeBase) :
    diffLoop (begin s t) (begin s tree) = (elems s t).filter fun x => decide (x ∉ elems s tree) := by
  rw [diffLoop_eq _ _ (by rw [from?_begin]; exact elems_sorted s t)
    (by rw [from?_begin]; exact elems_sorted s tree), from?_begin, from?_begin]

theorem mem_diff (s : Store α κ) (t tree : MojRbTreeBase) (x : α) :
    x ∈ diff s t tree ↔ x ∈ elems s t ∧ x ∉ elems s tree := by
  rw [diff, SortedSet.mem_putAll, diffLoop_begin, List.mem_filter, decide_eq_true_eq]
  exact or_iff_right (SortedSet.not_mem_empty x)

/-- In a list in order of the keys, what is before a key is less and what is behind it greater. -/
theorem split_compareKey (k : κ) {xs : List α} (h : xs.Pairwise fun x y => (key x : κ) < key y) :
    Split (compareKey k) xs := by
  refine h.imp fun {x y} hxy => ⟨fun hy => ?_, fun hx => ?_, ?_⟩
  · exact (cmp_eq_lt_iff _ _).mpr (hxy.trans ((cmp_eq_lt_iff _ _).mp hy))
  · exact (cmp_eq_gt_iff _ _).mpr (lt_trans ((cmp_eq_gt_iff _ _).mp hx) hxy)
  · rintro ⟨hx, hy⟩
    exact hxy.ne (((cmp_eq_eq_iff _ _).mp hx).trans ((cmp_eq_eq_iff _ _).mp hy).symm)

/-- The search ends at a node of the tree; what is before the node is less than the key, and what is
behind it greater. -/
theorem search_spec (s : Store α κ) (t : MojRbTreeBase) (k : κ) :
    match search s t k with
    | none => elems s t = []
    | some (node, comp) => node.items = elems s t ∧ cmp (key node.item) k = comp ∧
        (∀ x ∈ node.before, (key x : κ) < k) ∧ ∀ x ∈ node.rest, k < key x := by
  cases t with
  | none => rfl
  | some impl =>
    change match seek (compareKey k) (s.root impl) [] with | none => _ | some (node, comp) => _
    cases h : seek (compareKey k) (s.root impl) [] with
    | none =>
      change inorder (s.root impl) = []
      rw [seek_eq_none.mp h, inorder]
    | some p =>
      obtain ⟨hitems, hcomp, hlt, hgt⟩ := seek_spec (split_compareKey k (s.ordered impl))
        (fun x hx => absurd hx List.not_mem_nil) (fun x hx => absurd hx List.not_mem_nil) h
      refine ⟨?_, hcomp, fun x hx => (cmp_eq_lt_iff _ _).mp (hlt x hx),
        fun x hx => (cmp_eq_gt_iff _ _).mp (hgt x hx)⟩
      rw [hitems]
      simp [ahead, behind, elems]

theorem lowerBound_isFirst (s : Store α κ) (t : MojRbTreeBase) (k : κ) :
    IsFirst (fun x => k ≤ key x) (elems s t) (lowerBound s t k) := by
  have h := search_spec s t k
  unfold lowerBound
  cases hs : search s t k with
  | none =>
    rw [hs] at h
    rw [h]
    exact fun x hx => absurd hx List.not_mem_nil
  | some p =>
    rw [hs] at h
    obtain ⟨node, comp⟩ := p
    obtain ⟨hitems, hcomp, hlt, hgt⟩ := h
    dsimp only
    split_ifs with hne
    · refine ⟨hitems, not_lt.mp fun hk => hne ?_, fun x hx => (hlt x hx).not_ge⟩
      rw [← hcomp, cmp_eq_lt_iff]
      exact hk
    · rw [not_not] at hne
      have hk : key node.item < k := (cmp_eq_lt_iff _ _).mp (hcomp.trans hne)
      exact isFirst_successor hitems (fun x hx => (hlt x hx).not_ge) hk.not_ge fun x hx => (hgt x hx).le

theorem upperBound_isFirst (s : Store α κ) (t : MojRbTreeBase) (k : κ) :
    IsFirst (fun x => k < key x) (elems s t) (upperBound s t k) := by
  have h := search_spec s t k
  unfold upperBound
  cases hs : search s t k with
  | none =>
    rw [hs] at h
    rw [h]
    exact fun x hx => absurd hx List.not_mem_nil
  | some p =>
    rw [hs] at h
    obtain ⟨node, comp⟩ := p
    obtain ⟨hitems, hcomp, hlt, hgt⟩ := h
    dsimp only
    split_ifs with hcase
    · exact ⟨hitems, (cmp_eq_gt_iff _ _).mp (hcomp.trans hcase), fun x hx => (hlt x hx).asymm⟩
    · have hk : ¬ k < key node.item := by
        intro hk
        rw [← hcomp, cmp_eq_gt_iff] at hcase
        exact hcase hk
      exact isFirst_successor hitems (fun x hx => (hlt x hx).asymm) hk hgt

/-- For any two trees, also of one `Impl`, and any argument: `diff` puts each element of the first
that is not in the second once, in order, and so makes the set of them; `compare` is the
lexicographic order; `lowerBound` and `upperBound` are the first elements not less than and greater
than the argument. -/
theorem walks_spec (s : Store α κ) (t u : MojRbTreeBase) (k : κ) :
    (diffLoop (begin s t) (begin s u) = (elems s t).filter (fun x => decide (x ∉ elems s u)) ∧
      ∀ x, x ∈ diff s t u ↔ x ∈ elems s t ∧ x ∉ elems s u) ∧
    compare s t u = lexCompare (elems s t) (elems s u) ∧
    IsFirst (fun x => k ≤ key x) (elems s t) (lowerBound s t k) ∧
    IsFirst (fun x => k < key x) (elems s t) (upperBound s t k) :=
  ⟨⟨diffLoop_begin s t u, mem_diff s t u⟩, compare_eq s t u, lowerBound_isFirst s t k, upperBound_isFirst s t k⟩

end MojRbTreeBase

end Db8
