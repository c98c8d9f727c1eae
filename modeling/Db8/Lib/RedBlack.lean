import Db8.Lib.BinTree
import Mathlib.Data.List.Perm.Basic

/-!
# Lib.RedBlack

Red-black trees, seen from one of their subtrees.

* `Frame.fill`, `plug` — a subtree with the node above it, and with all that is above it.
* `Cell`, `elems`      — an element with the color of its node, and the elements in order.
* `Balanced`           — no red node has a red child, and as many nodes on every way down are black.
* `Fits`               — the same of what is above a subtree; `Fits.balanced` puts the two together.
* `forall_ahead`, `forall_behind` — what a search knows of the elements to its left and right.
-/

namespace Lib

namespace BinTree

section Zipper

variable {α : Type*}

/-- The tree of a node, with `t` as the child one came from. -/
def Frame.fill (f : Frame α) (t : BinTree α) : BinTree α :=
  match f.dir with
  | .left => node t f.item f.sibling
  | .right => node f.sibling f.item t

@[simp] theorem Dir.opposite_opposite (d : Dir) : d.opposite.opposite = d := by cases d <;> rfl

@[simp] theorem Dir.opposite_ne (d : Dir) : d.opposite ≠ d := by cases d <;> decide

@[simp] theorem Dir.ne_opposite (d : Dir) : d ≠ d.opposite := by cases d <;> decide

theorem Dir.eq_opposite_of_ne {d e : Dir} (h : d ≠ e) : d = e.opposite := by
  cases d <;> cases e <;> first | rfl | exact absurd rfl h

def plug : List (Frame α) → BinTree α → BinTree α
  | [], t => t
  | f :: path, t => plug path (f.fill t)

theorem inorder_plug (path : List (Frame α)) (t : BinTree α) :
    inorder (plug path t) = ahead path ++ inorder t ++ behind path := by
  induction path generalizing t with
  | nil => simp [plug, ahead, behind]
  | cons f path ih =>
    obtain ⟨d, x, s⟩ := f
    rw [plug, ih]
    cases d with
    | left => simp [Frame.fill, inorder, ahead, behind]
    | right => simp [Frame.fill, inorder, ahead, behind]

theorem ahead_append (path path' : List (Frame α)) : ahead (path ++ path') = ahead path' ++ ahead path := by
  induction path with
  | nil => simp [ahead]
  | cons f path ih =>
    obtain ⟨d, x, s⟩ := f
    cases d <;> simp [ahead, ih]

theorem behind_append (path path' : List (Frame α)) : behind (path ++ path') = behind path ++ behind path' := by
  induction path with
  | nil => rfl
  | cons f path ih =>
    obtain ⟨d, x, s⟩ := f
    cases d <;> simp [behind, ih]

/-- Where a search is: it went to the right from elements with the property, which all before them have. -/
theorem forall_ahead {P : α → Prop} {path : List (Frame α)} {t : BinTree α}
    (h : (inorder (plug path t)).Pairwise fun x y => P y → P x) (hright : ∀ f ∈ path, f.dir = .right → P f.item) :
    ∀ x ∈ ahead path, P x := by
  induction path generalizing t with
  | nil => exact fun x hx => absurd hx List.not_mem_nil
  | cons f path ih =>
    obtain ⟨hf, hpath⟩ := List.forall_mem_cons.mp hright
    obtain ⟨d, y, s⟩ := f
    have hahead := ih h hpath
    cases d with
    | left => exact hahead
    | right =>
      have hy : P y := hf rfl
      rw [plug, inorder_plug, Frame.fill] at h
      have hnode := ((List.pairwise_append.mp (List.pairwise_append.mp h).1).2.1)
      intro x hx
      rcases List.mem_append.mp hx with hx | hx
      · rcases List.mem_append.mp hx with hx | hx
        · exact hahead x hx
        · exact (List.pairwise_append.mp hnode).2.2 x hx y List.mem_cons_self hy
      · exact List.mem_singleton.mp hx ▸ hy

theorem forall_behind {P : α → Prop} {path : List (Frame α)} {t : BinTree α}
    (h : (inorder (plug path t)).Pairwise fun x y => P x → P y) (hleft : ∀ f ∈ path, f.dir = .left → P f.item) :
    ∀ x ∈ behind path, P x := by
  induction path generalizing t with
  | nil => exact fun x hx => absurd hx List.not_mem_nil
  | cons f path ih =>
    obtain ⟨hf, hpath⟩ := List.forall_mem_cons.mp hleft
    obtain ⟨d, y, s⟩ := f
    have hbehind := ih h hpath
    cases d with
    | right => exact hbehind
    | left =>
      have hy : P y := hf rfl
      rw [plug, inorder_plug, Frame.fill] at h
      have hnode := ((List.pairwise_append.mp (List.pairwise_append.mp h).1).2.1)
      have hs := (List.pairwise_cons.mp (List.pairwise_append.mp hnode).2.1).1
      intro x hx
      rcases List.mem_cons.mp hx with rfl | hx
      · exact hy
      · rcases List.mem_append.mp hx with hx | hx
        · exact hs x hx hy
        · exact hbehind x hx

end Zipper

/-! ## Colors -/

inductive Color where
  | black | red
  deriving DecidableEq

structure Cell (α : Type*) where
  color : Color
  item : α

variable {α : Type*}

/-- The root is a red node. -/
def red : BinTree (Cell α) → Bool
  | nil => false
  | node _ x _ => x.color = .red

/-- The node above is red. -/
def redAbove : List (Frame (Cell α)) → Bool
  | [] => false
  | f :: _ => f.item.color = .red

def elems (t : BinTree (Cell α)) : List α := (inorder t).map Cell.item

/-- A node with the child `t` in a direction and `s` in the other. -/
def fork (d : Dir) (c : Color) (x : α) (t s : BinTree (Cell α)) : BinTree (Cell α) :=
  (⟨d, ⟨c, x⟩, s⟩ : Frame (Cell α)).fill t

theorem plug_cons (d : Dir) (c : Color) (x : α) (s : BinTree (Cell α)) (path : List (Frame (Cell α))) (t : BinTree (Cell α)) :
    plug (⟨d, ⟨c, x⟩, s⟩ :: path) t = plug path (fork d c x t s) := rfl

theorem fork_turn (d : Dir) (c : Color) (x : α) (t s : BinTree (Cell α)) : fork d.opposite c x t s = fork d c x s t := by
  cases d <;> rfl

theorem exists_fork (d : Dir) (l : BinTree (Cell α)) (x : Cell α) (r : BinTree (Cell α)) :
    ∃ t s, node l x r = fork d x.color x.item t s := by
  cases d with
  | left => exact ⟨l, r, rfl⟩
  | right => exact ⟨r, l, rfl⟩

@[simp] theorem red_fork (d : Dir) (c : Color) (x : α) (t s : BinTree (Cell α)) : red (fork d c x t s) = decide (c = .red) := by
  cases d <;> rfl

theorem fork_inj {d d' : Dir} {c c' : Color} {x x' : α} {t t' s s' : BinTree (Cell α)}
    (h : fork d c x t s = fork d' c' x' t' s') : c = c' ∧ x = x' ∧ (d = d' → t = t' ∧ s = s') := by
  cases d <;> cases d' <;> simp only [fork, Frame.fill, node.injEq, Cell.mk.injEq] at h <;> simp [h]

theorem fork_ne_nil {d : Dir} {c : Color} {x : α} {t s : BinTree (Cell α)} : fork d c x t s ≠ nil := by
  cases d <;> simp [fork, Frame.fill]

theorem exists_fork_of_ne_nil {t : BinTree (Cell α)} (h : t ≠ nil) (d : Dir) : ∃ c x u s, t = fork d c x u s := by
  cases t with
  | nil => exact absurd rfl h
  | node l x r =>
    obtain ⟨u, s, he⟩ := exists_fork d l x r
    exact ⟨x.color, x.item, u, s, he⟩

theorem exists_fork_of_red {t : BinTree (Cell α)} (h : red t = true) (d : Dir) : ∃ x u s, t = fork d .red x u s := by
  cases t with
  | nil => cases h
  | node l x r =>
    obtain ⟨u, s, he⟩ := exists_fork d l x r
    rw [he, red_fork, decide_eq_true_eq] at h
    exact ⟨x.item, u, s, h ▸ he⟩

/-- `n` of the nodes on each way down from the root are black. -/
inductive Balanced : BinTree (Cell α) → Nat → Prop
  | nil : Balanced nil 0
  | red {l r : BinTree (Cell α)} {x : α} {n : Nat} (hl : Balanced l n) (hr : Balanced r n) (hl' : red l = false)
      (hr' : red r = false) : Balanced (node l ⟨.red, x⟩ r) n
  | black {l r : BinTree (Cell α)} {x : α} {n : Nat} (hl : Balanced l n) (hr : Balanced r n) :
      Balanced (node l ⟨.black, x⟩ r) (n + 1)

/-- What is above a subtree with `n` black nodes on each way down. -/
inductive Fits : List (Frame (Cell α)) → Nat → Prop
  | nil {n : Nat} : Fits [] n
  | red {path : List (Frame (Cell α))} {d : Dir} {x : α} {s : BinTree (Cell α)} {n : Nat} (hpath : Fits path n)
      (habove : redAbove path = false) (hs : Balanced s n) (hs' : BinTree.red s = false) : Fits (⟨d, ⟨.red, x⟩, s⟩ :: path) n
  | black {path : List (Frame (Cell α))} {d : Dir} {x : α} {s : BinTree (Cell α)} {n : Nat} (hpath : Fits path (n + 1))
      (hs : Balanced s n) : Fits (⟨d, ⟨.black, x⟩, s⟩ :: path) n

variable {d : Dir} {c : Color} {x : α} {s t : BinTree (Cell α)} {path : List (Frame (Cell α))} {n : Nat}

/-- Another element at a node above. -/
theorem Fits.of_item {mid : List (Frame (Cell α))} (h : Fits (mid ++ ⟨d, ⟨c, x⟩, s⟩ :: path) n) (y : α) :
    Fits (mid ++ ⟨d, ⟨c, y⟩, s⟩ :: path) n := by
  induction mid generalizing n with
  | nil =>
    cases h with
    | red hpath habove hs hs' => exact .red hpath habove hs hs'
    | black hpath hs => exact .black hpath hs
  | cons f mid ih =>
    cases h with
    | black hpath hs => exact .black (ih hpath) hs
    | red hpath habove hs hs' =>
      refine .red (ih hpath) ?_ hs hs'
      cases mid with
      | nil => exact habove
      | cons f' mid => exact habove

theorem balanced_red : Balanced (fork d .red x t s) n ↔ Balanced t n ∧ Balanced s n ∧ red t = false ∧ red s = false := by
  cases d with
  | left =>
    constructor
    · rintro (_ | ⟨hl, hr, hl', hr'⟩)
      exact ⟨hl, hr, hl', hr'⟩
    · exact fun ⟨hl, hr, hl', hr'⟩ => .red hl hr hl' hr'
  | right =>
    constructor
    · rintro (_ | ⟨hl, hr, hl', hr'⟩)
      exact ⟨hr, hl, hr', hl'⟩
    · exact fun ⟨hr, hl, hr', hl'⟩ => .red hl hr hl' hr'

theorem balanced_black : Balanced (fork d .black x t s) n ↔ ∃ m, n = m + 1 ∧ Balanced t m ∧ Balanced s m := by
  cases d with
  | left =>
    constructor
    · rintro (_ | _ | ⟨hl, hr⟩)
      exact ⟨_, rfl, hl, hr⟩
    · rintro ⟨m, rfl, hl, hr⟩
      exact .black hl hr
  | right =>
    constructor
    · rintro (_ | _ | ⟨hl, hr⟩)
      exact ⟨_, rfl, hr, hl⟩
    · rintro ⟨m, rfl, hr, hl⟩
      exact .black hl hr

theorem Balanced.of_item (h : Balanced (fork d c x t s) n) (y : α) : Balanced (fork d c y t s) n := by
  cases c with
  | red => exact balanced_red.mpr (balanced_red.mp h)
  | black => exact balanced_black.mpr (balanced_black.mp h)

theorem Balanced.children {l r : BinTree (Cell α)} {x : Cell α} (h : Balanced (node l x r) n) :
    ∃ m, Balanced l m ∧ Balanced r m ∧ (x.color = .red → BinTree.red l = false ∧ BinTree.red r = false) ∧
      n = m + if x.color = .red then 0 else 1 := by
  cases h with
  | red hl hr hl' hr' => exact ⟨n, hl, hr, fun _ => ⟨hl', hr'⟩, rfl⟩
  | black hl hr => exact ⟨_, hl, hr, by rintro ⟨⟩, rfl⟩

/-- The root becomes black. -/
def blacken : BinTree (Cell α) → BinTree (Cell α)
  | nil => nil
  | node l x r => node l ⟨.black, x.item⟩ r

theorem blacken_fork (d : Dir) (c : Color) (x : α) (t s : BinTree (Cell α)) :
    blacken (fork d c x t s) = fork d .black x t s := by
  cases d <;> rfl

@[simp] theorem red_blacken (t : BinTree (Cell α)) : red (blacken t) = false := by
  cases t <;> rfl

theorem Balanced.blacken (h : Balanced t n) (hred : BinTree.red t = true) : Balanced (blacken t) (n + 1) := by
  cases h with
  | nil => cases hred
  | red hl hr => exact .black hl hr
  | black => cases hred

/-- A black node without red children. -/
def Quiet (t : BinTree (Cell α)) : Prop := ∃ l x r, t = node l ⟨.black, x⟩ r ∧ red l = false ∧ red r = false

theorem Balanced.quiet_blacken (h : Balanced t n) (hred : BinTree.red t = true) : Quiet (BinTree.blacken t) := by
  cases h with
  | nil => cases hred
  | red _ _ hl' hr' => exact ⟨_, _, _, rfl, hl', hr'⟩
  | black => cases hred

theorem not_quiet_nil : ¬Quiet (nil : BinTree (Cell α)) := by
  rintro ⟨l, x, r, h, -⟩
  cases h

theorem quiet_fork : Quiet (fork d c x t s) ↔ c = .black ∧ red t = false ∧ red s = false := by
  constructor
  · rintro ⟨l, y, r, h, hl, hr⟩
    cases d with
    | left =>
      cases h
      exact ⟨rfl, hl, hr⟩
    | right =>
      cases h
      exact ⟨rfl, hr, hl⟩
  · rintro ⟨rfl, ht, hs⟩
    cases d with
    | left => exact ⟨t, x, s, rfl, ht, hs⟩
    | right => exact ⟨s, x, t, rfl, hs, ht⟩

/-- The children of a red node are black. -/
theorem balanced_flip {l r : BinTree (Cell α)} (h : Balanced (fork d c x l r) n) (hl : red l = true) (hr : red r = true) :
    c = .black ∧ Balanced (fork d .red x (blacken l) (blacken r)) n := by
  cases c with
  | red =>
    rw [(balanced_red.mp h).2.2.1] at hl
    cases hl
  | black =>
    obtain ⟨m, rfl, hbl, hbr⟩ := balanced_black.mp h
    exact ⟨rfl, balanced_red.mpr ⟨hbl.blacken hl, hbr.blacken hr, red_blacken l, red_blacken r⟩⟩

/-- A subtree and what is above it. -/
theorem Fits.balanced (hpath : Fits path n) (ht : Balanced t n) (hred : redAbove path = true → BinTree.red t = false) :
    ∃ m, Balanced (plug path t) m := by
  induction hpath generalizing t with
  | nil => exact ⟨_, ht⟩
  | red _ habove hs hs' ih =>
    refine ih (balanced_red.mpr ⟨ht, hs, hred rfl, hs'⟩) fun h => ?_
    rw [habove] at h
    cases h
  | black _ hs ih => exact ih (balanced_black.mpr ⟨_, rfl, ht, hs⟩) fun _ => red_fork ..

/-- One step down. -/
theorem Fits.down (hpath : Fits path n) (h : Balanced (fork d c x t s) n)
    (hred : redAbove path = true → BinTree.red (fork d c x t s) = false) :
    ∃ m, Fits (⟨d, ⟨c, x⟩, s⟩ :: path) m ∧ Balanced t m ∧ Balanced s m ∧
      (c = .red → BinTree.red t = false ∧ BinTree.red s = false) := by
  cases c with
  | red =>
    obtain ⟨ht, hs, ht', hs'⟩ := balanced_red.mp h
    refine ⟨n, .red hpath ?_ hs hs', ht, hs, fun _ => ⟨ht', hs'⟩⟩
    cases hr : redAbove path with
    | false => rfl
    | true => exact absurd (hred hr) (by simp)
  | black =>
    obtain ⟨m, rfl, ht, hs⟩ := balanced_black.mp h
    exact ⟨m, .black hpath hs, ht, hs, by rintro ⟨⟩⟩

/-! ## The elements -/

theorem elems_plug (path : List (Frame (Cell α))) (t : BinTree (Cell α)) :
    elems (plug path t) = (ahead path).map Cell.item ++ elems t ++ (behind path).map Cell.item := by
  simp [elems, inorder_plug]

theorem elems_plug_congr (path : List (Frame (Cell α))) {t u : BinTree (Cell α)} (h : elems u = elems t) :
    elems (plug path u) = elems (plug path t) := by
  rw [elems_plug, elems_plug, h]

@[simp] theorem elems_nil : elems (nil : BinTree (Cell α)) = [] := rfl

@[simp] theorem elems_node (l : BinTree (Cell α)) (x : Cell α) (r : BinTree (Cell α)) :
    elems (node l x r) = elems l ++ x.item :: elems r := by
  simp [elems, inorder]

@[simp] theorem elems_blacken (t : BinTree (Cell α)) : elems (blacken t) = elems t := by
  cases t <;> simp [blacken]

theorem elems_fork (d : Dir) (c : Color) (x : α) (t s : BinTree (Cell α)) :
    elems (fork d c x t s) = if d = .left then elems t ++ x :: elems s else elems s ++ x :: elems t := by
  cases d <;> simp [fork, Frame.fill]

theorem mem_elems_fork (d : Dir) (c : Color) (x : α) (t s : BinTree (Cell α)) : x ∈ elems (fork d c x t s) := by
  rw [elems_fork]
  split_ifs <;> simp

theorem mem_elems_plug (path : List (Frame (Cell α))) (h : x ∈ elems t) : x ∈ elems (plug path t) := by
  rw [elems_plug]
  simp [h]

theorem elems_fork_color {d : Dir} (c c' : Color) (x : α) (t s : BinTree (Cell α)) :
    elems (fork d c' x t s) = elems (fork d c x t s) := by
  rw [elems_fork, elems_fork]

/-- A rotation leaves the order of the elements. -/
theorem elems_rotate (d : Dir) (x y : α) (c c' b b' : Color) (s t u : BinTree (Cell α)) :
    elems (fork d c' y (fork d b' x s t) u) = elems (fork d c x s (fork d b y t u)) := by
  cases d <;> simp [elems_fork]

theorem elems_rotateDouble (d : Dir) (x y z : α) (c c' b b' b'' a : Color) (s t v w : BinTree (Cell α)) :
    elems (fork d c' z (fork d b' x s w) (fork d.opposite b'' y t v)) =
      elems (fork d c x s (fork d.opposite b y t (fork d.opposite a z v w))) := by
  cases d <;> simp [elems_fork, Dir.opposite]

theorem length_elems_fork (d : Dir) (c : Color) (x : α) (t s : BinTree (Cell α)) :
    (elems (fork d c x t s)).length = (elems t).length + (elems s).length + 1 := by
  cases d <;> simp [elems_fork] <;> omega

theorem perm_elems_fork (d : Dir) (c : Color) (x : α) (t s : BinTree (Cell α)) :
    (elems (fork d c x t s)).Perm (x :: (elems t ++ elems s)) := by
  rw [elems_fork]
  split_ifs
  · exact List.perm_middle
  · exact List.perm_middle.trans (.cons _ List.perm_append_comm)

end BinTree

end Lib
