import Db8.Core.MojRbTreeNodes

/-!
# Core.MojRbTreeLinks

What the pointers of the nodes make up: a tree, seen from one of its subtrees.

* `Linked`, `LinkedPath` — the nodes of a subtree, and those above it up to the dummy root.
* `Stored`               — both, with every node at an address of its own.
* `Reshaped`             — a tree in another shape, with the same elements in order.
* `Stored.setColor`, `Stored.rotate`, `Stored.replace` — what the functions of a node do to the tree.
-/

namespace Db8

open Lib Lib.BinTree

namespace MojRbTree

structure Elem (κ ν : Type) where
  addr : Nat
  key : κ
  val : ν

variable {κ ν : Type}

abbrev Tree (κ ν : Type) := BinTree (Cell (Elem κ ν))
abbrev Path (κ ν : Type) := List (Frame (Cell (Elem κ ν)))

abbrev addr (f : Frame (Cell (Elem κ ν))) : Nat := f.item.item.addr

def addrs (t : Tree κ ν) : List Nat := (elems t).map Elem.addr

def root : Tree κ ν → Option Nat
  | nil => none
  | node _ x _ => some x.item.addr

/-- The children of a node, by the direction of one of them. -/
def sides (d : Dir) (x y : Option Nat) : Dir → Option Nat := fun e => if e = d then x else y

@[simp] theorem sides_self (d : Dir) (x y : Option Nat) : sides d x y d = x := if_pos rfl

@[simp] theorem sides_opposite (d : Dir) (x y : Option Nat) : sides d x y d.opposite = y := if_neg (by simp)

@[simp] theorem update_sides (d : Dir) (x y z : Option Nat) : Function.update (sides d x y) d z = sides d z y := by
  funext e
  by_cases h : e = d <;> simp [sides, h]

@[simp] theorem update_sides_opposite (d : Dir) (x y z : Option Nat) :
    Function.update (sides d x y) d.opposite z = sides d x z := by
  funext e
  by_cases h : e = d
  · subst h
    simp [sides]
  · have he := Dir.eq_opposite_of_ne h
    subst he
    simp [sides]

theorem sides_turn (d : Dir) (x y : Option Nat) : sides d.opposite x y = sides d y x := by
  funext e
  by_cases h : e = d
  · subst h
    simp [sides]
  · have he := Dir.eq_opposite_of_ne h
    subst he
    simp [sides]

/-- The nodes of a subtree with the parent `p`. -/
def Linked (nodes : Nodes) : Option Nat → Tree κ ν → Prop
  | _, nil => True
  | p, node l x r => nodes x.item.addr = some ⟨x.color, p, sides .left (root l) (root r)⟩ ∧
      Linked nodes (some x.item.addr) l ∧ Linked nodes (some x.item.addr) r

/-- The parent of a subtree. -/
def up : Path κ ν → Nat
  | [] => head
  | f :: _ => addr f

@[simp] theorem up_nil : up ([] : Path κ ν) = head := rfl

@[simp] theorem up_cons (f : Frame (Cell (Elem κ ν))) (path : Path κ ν) : up (f :: path) = f.item.item.addr := rfl

/-- The child of its parent that a subtree is. -/
def side : Path κ ν → Dir
  | [] => .right
  | f :: _ => f.dir

/-- The nodes above a subtree, where the pointer to it is `hole`. -/
def LinkedPath (nodes : Nodes) : Path κ ν → Option Nat → Prop
  | [], hole => nodes head = some ⟨.red, none, sides .right hole none⟩
  | f :: path, hole => nodes (addr f) = some ⟨f.item.color, some (up path), sides f.dir hole (root f.sibling)⟩ ∧
      Linked nodes (some (addr f)) f.sibling ∧ LinkedPath nodes path (some (addr f))

def pathAddrs : Path κ ν → List Nat
  | [] => [head]
  | f :: path => addr f :: (addrs f.sibling ++ pathAddrs path)

variable {nodes nodes' : Nodes} {p p' hole : Option Nat} {path : Path κ ν} {t u : Tree κ ν}
  {f : Frame (Cell (Elem κ ν))} {a b : Nat} {d : Dir} {c c' : Color} {x y : Elem κ ν}

/-! ## Addresses -/

@[simp] theorem addrs_nil : addrs (nil : Tree κ ν) = [] := rfl

theorem perm_addrs_fork (d : Dir) (c : Color) (x : Elem κ ν) (t u : Tree κ ν) :
    (addrs (fork d c x t u)).Perm (x.addr :: (addrs t ++ addrs u)) := by
  have h := (perm_elems_fork d c x t u).map Elem.addr
  rwa [List.map_cons, List.map_append] at h

@[simp] theorem mem_addrs_fork : b ∈ addrs (fork d c x t u) ↔ b = x.addr ∨ b ∈ addrs t ∨ b ∈ addrs u := by
  rw [(perm_addrs_fork d c x t u).mem_iff]
  simp

theorem mem_addrs_of_root (h : root t = some a) : a ∈ addrs t := by
  cases t with
  | nil => cases h
  | node l x r =>
    cases h
    simp [addrs]

@[simp] theorem root_fork : root (fork d c x t u) = some x.addr := by
  cases d <;> rfl

theorem nodup_addrs_fork : (addrs (fork d c x t u)).Nodup ↔ x.addr ∉ addrs t ∧ x.addr ∉ addrs u ∧
    (addrs t).Nodup ∧ (addrs u).Nodup ∧ ∀ b ∈ addrs t, b ∉ addrs u := by
  rw [(perm_addrs_fork d c x t u).nodup_iff, List.nodup_cons, List.nodup_append]
  simp only [List.mem_append, not_or]
  constructor
  · exact fun ⟨⟨ht, hu⟩, h⟩ => ⟨ht, hu, h.1, h.2.1, fun b hb hb' => h.2.2 b hb b hb' rfl⟩
  · exact fun ⟨ht, hu, h, h', hne⟩ => ⟨⟨ht, hu⟩, h, h', fun a ha b hb he => hne a ha (he ▸ hb)⟩

theorem perm_places (path : Path κ ν) (t : Tree κ ν) :
    (pathAddrs path ++ addrs t).Perm (head :: addrs (plug path t)) := by
  induction path generalizing t with
  | nil => exact .refl _
  | cons f path ih =>
    obtain ⟨d, ⟨c, x⟩, s⟩ := f
    refine .trans ?_ (ih (fork d c x t s))
    rw [pathAddrs, List.cons_append, List.append_assoc]
    refine .trans ?_ (List.Perm.append_left _ (perm_addrs_fork d c x t s).symm)
    refine .trans ?_ List.perm_middle.symm
    refine .cons _ (.trans List.perm_append_comm ?_)
    rw [List.append_assoc]

/-! ## Subtrees -/

theorem linked_fork : Linked nodes p (fork d c x t u) ↔
    nodes x.addr = some ⟨c, p, sides d (root t) (root u)⟩ ∧ Linked nodes (some x.addr) t ∧
      Linked nodes (some x.addr) u := by
  cases d with
  | left => exact Iff.rfl
  | right =>
    have hsides : sides .left (root u) (root t) = sides .right (root t) (root u) :=
      (sides_turn .left (root t) (root u)).symm
    simp only [fork, Frame.fill, Linked, hsides]
    tauto

theorem Linked.congr (h : Linked nodes p t) (hsame : ∀ b ∈ addrs t, nodes' b = nodes b) : Linked nodes' p t := by
  induction t generalizing p with
  | nil => trivial
  | node l x r ihl ihr =>
    have hmem : ∀ b, b ∈ addrs (node l x r) ↔ b ∈ addrs l ∨ b = x.item.addr ∨ b ∈ addrs r := by simp [addrs]
    obtain ⟨hx, hl, hr⟩ := h
    refine ⟨?_, ihl hl fun b hb => hsame b ((hmem b).mpr (.inl hb)), ihr hr fun b hb => hsame b ((hmem b).mpr (.inr (.inr hb)))⟩
    rw [hsame _ ((hmem _).mpr (.inr (.inl rfl)))]
    exact hx

theorem LinkedPath.congr (h : LinkedPath nodes path hole) (hsame : ∀ b ∈ pathAddrs path, nodes' b = nodes b) :
    LinkedPath nodes' path hole := by
  induction path generalizing hole with
  | nil =>
    rw [LinkedPath, hsame _ (by simp [pathAddrs])]
    exact h
  | cons f path ih =>
    obtain ⟨hf, hs, hpath⟩ := h
    refine ⟨?_, hs.congr fun b hb => hsame b (by simp [pathAddrs, hb]), ih hpath fun b hb => hsame b (by simp [pathAddrs, hb])⟩
    rw [hsame _ (by simp [pathAddrs])]
    exact hf

/-- The nodes of a subtree, whatever the parent of its root is. -/
def Loose (nodes : Nodes) (t : Tree κ ν) : Prop := ∃ p, Linked nodes p t

theorem isRed_root (h : Linked nodes p t) : isRed nodes (root t) = some (red t) := by
  cases t with
  | nil => rfl
  | node l x r => simp [root, isRed, h.1, red]

/-- `setChild`, with a node that is there or none. -/
theorem exists_setChild {n : Node} (ha : nodes a = some n) (d : Dir) {z : Option Nat}
    (hz : ∀ b, z = some b → b ≠ a ∧ ∃ m, nodes b = some m) :
    ∃ nodes', setChild nodes a d z = some nodes' ∧
      nodes' a = some { n with children := Function.update n.children d z } ∧
      (∀ b m, z = some b → nodes b = some m → nodes' b = some { m with parent := some a }) ∧
      ∀ b, b ≠ a → z ≠ some b → nodes' b = nodes b := by
  let nodes₁ := Function.update nodes a (some { n with children := Function.update n.children d z })
  cases z with
  | none => exact ⟨nodes₁, by simp [setChild, ha, nodes₁], by simp [nodes₁], by simp, fun b hb _ => Function.update_of_ne hb _ _⟩
  | some b =>
    obtain ⟨hba, m, hb⟩ := hz b rfl
    have hb₁ : nodes₁ b = some m := (Function.update_of_ne hba _ _).trans hb
    refine ⟨Function.update nodes₁ b (some { m with parent := some a }), ?_, ?_, ?_, fun c hca hcb => ?_⟩
    · simp [setChild, ha, setParent, hb₁, nodes₁]
    · simp [Ne.symm hba, nodes₁]
    · rintro _ m' ⟨⟩ hm'
      rw [Function.update_self, Option.some.inj (hb.symm.trans hm')]
    · rw [Function.update_of_ne fun he => hcb (by rw [he])]
      exact Function.update_of_ne hca _ _

/-- A subtree whose root gets another parent. -/
theorem Linked.reparent (h : Linked nodes p t) (hnodup : (addrs t).Nodup)
    (hroot : ∀ b m, root t = some b → nodes b = some m → nodes' b = some { m with parent := p' })
    (hsame : ∀ b ∈ addrs t, root t ≠ some b → nodes' b = nodes b) : Linked nodes' p' t := by
  cases t with
  | nil => trivial
  | node l x r =>
    obtain ⟨t, u, he⟩ := exists_fork .left l x r
    rw [he] at h hnodup hroot hsame ⊢
    obtain ⟨hx, ht, hu⟩ := linked_fork.mp h
    obtain ⟨hxt, hxu, -⟩ := nodup_addrs_fork.mp hnodup
    have hother : ∀ b ∈ addrs (fork .left x.color x.item t u), b ≠ x.item.addr → nodes' b = nodes b := by
      intro b hb hbx
      exact hsame b hb fun h => hbx (Option.some.inj (root_fork.symm.trans h)).symm
    refine linked_fork.mpr ⟨hroot _ _ root_fork hx, ht.congr fun b hb => hother b ?_ ?_, hu.congr fun b hb => hother b ?_ ?_⟩
    · simp [hb]
    · exact fun h => hxt (h ▸ hb)
    · simp [hb]
    · exact fun h => hxu (h ▸ hb)

theorem Linked.exists_root (h : Linked nodes p t) (hb : root t = some b) : ∃ m, nodes b = some m := by
  cases t with
  | nil => cases hb
  | node l x r =>
    cases hb
    exact ⟨_, h.1⟩

theorem Linked.parent_root (h : Linked nodes p t) (hb : root t = some b) : (nodes b).map Node.parent = some p := by
  cases t with
  | nil => cases hb
  | node l x r =>
    cases hb
    rw [h.1]
    rfl

/-- `setChild` with the root of a subtree. -/
theorem setChild_loose {n : Node} (hn : nodes a = some n) (ha : a ∉ addrs t) (ht : Loose nodes t)
    (hnodup : (addrs t).Nodup) (d : Dir) :
    ∃ nodes', setChild nodes a d (root t) = some nodes' ∧
      nodes' a = some { n with children := Function.update n.children d (root t) } ∧ Linked nodes' (some a) t ∧
      ∀ b, b ≠ a → b ∉ addrs t → nodes' b = nodes b := by
  obtain ⟨p, ht⟩ := ht
  obtain ⟨nodes', hset, ha', hroot, hsame⟩ := exists_setChild hn d fun b hb =>
    ⟨fun he => ha (he ▸ mem_addrs_of_root hb), ht.exists_root hb⟩
  refine ⟨nodes', hset, ha', ht.reparent hnodup hroot fun b hb hne => hsame b ?_ hne, fun b hba hbt => hsame b hba ?_⟩
  · exact fun he => ha (he ▸ hb)
  · exact fun he => hbt (mem_addrs_of_root he)

/-- `setColor` of the root of a subtree. -/
theorem setColor_linked (h : Linked nodes p (fork d c x t u)) (hnodup : (addrs (fork d c x t u)).Nodup) (c' : Color) :
    ∃ nodes', setColor nodes x.addr c' = some nodes' ∧ Linked nodes' p (fork d c' x t u) ∧
      ∀ b, b ≠ x.addr → nodes' b = nodes b := by
  obtain ⟨hx, ht, hu⟩ := linked_fork.mp h
  obtain ⟨hxt, hxu, -⟩ := nodup_addrs_fork.mp hnodup
  let nodes' := Function.update nodes x.addr (some ⟨c', p, sides d (root t) (root u)⟩)
  have hother : ∀ b, b ≠ x.addr → nodes' b = nodes b := fun b hb => Function.update_of_ne hb _ _
  refine ⟨nodes', by simp [setColor, hx, nodes'], linked_fork.mpr ⟨by simp [nodes'], ?_, ?_⟩, hother⟩
  · exact ht.congr fun b hb => hother b fun he => hxt (he ▸ hb)
  · exact hu.congr fun b hb => hother b fun he => hxu (he ▸ hb)

/-! ## Rotations -/

theorem rotate_loose {s : Tree κ ν} (h : Loose nodes (fork d c x s (fork d c' y t u)))
    (hnodup : (addrs (fork d c x s (fork d c' y t u))).Nodup) :
    ∃ nodes', rotate nodes x.addr d = some (nodes', y.addr) ∧
      Loose nodes' (fork d .black y (fork d .red x s t) u) ∧
      ∀ b, b ∉ addrs (fork d c x s (fork d c' y t u)) → nodes' b = nodes b := by
  obtain ⟨p, hlinked⟩ := h
  obtain ⟨hx, hs, hy⟩ := linked_fork.mp hlinked
  obtain ⟨hy, ht, hu⟩ := linked_fork.mp hy
  simp only [nodup_addrs_fork, mem_addrs_fork, not_or] at hnodup
  obtain ⟨hxs, ⟨hxy, hxt, hxu⟩, hns, ⟨hyt, hyu, hnt, hnu, htu⟩, hsy⟩ := hnodup
  rw [root_fork] at hx
  -- the inner subtree goes to `x`
  obtain ⟨nodes₁, hset₁, hx₁, ht₁, hsame₁⟩ := setChild_loose hx hxt ⟨_, ht⟩ hnt d.opposite
  have hy₁ : nodes₁ y.addr = some ⟨c', some x.addr, sides d (root t) (root u)⟩ := (hsame₁ _ (Ne.symm hxy) hyt).trans hy
  have hs₁ : Linked nodes₁ (some x.addr) s := hs.congr fun b hb => hsame₁ b (fun he => hxs (he ▸ hb)) (hsy b hb).2.1
  have hu₁ : Linked nodes₁ (some y.addr) u := hu.congr fun b hb => hsame₁ b (fun he => hxu (he ▸ hb)) fun hbt => htu b hbt hb
  rw [update_sides_opposite] at hx₁
  have hxtree : Loose nodes₁ (fork d c x s t) := ⟨p, linked_fork.mpr ⟨hx₁, hs₁, ht₁⟩⟩
  have hnx : (addrs (fork d c x s t)).Nodup := nodup_addrs_fork.mpr ⟨hxs, hxt, hns, hnt, fun b hb => (hsy b hb).2.1⟩
  have hyx : y.addr ∉ addrs (fork d c x s t) := by
    simp only [mem_addrs_fork, not_or]
    exact ⟨Ne.symm hxy, fun hys => (hsy _ hys).1 rfl, hyt⟩
  -- `x` goes below `y`
  obtain ⟨nodes₂, hset₂, hy₂, hxtree₂, hsame₂⟩ := setChild_loose hy₁ hyx hxtree hnx d
  have hnotin : ∀ b ∈ addrs u, b ∉ addrs (fork d c x s t) := fun b hb => by
    simp only [mem_addrs_fork, not_or]
    exact ⟨fun he => hxu (he ▸ hb), fun hbs => (hsy b hbs).2.2 hb, fun hbt => htu b hbt hb⟩
  have hu₂ : Linked nodes₂ (some y.addr) u := hu₁.congr fun b hb => hsame₂ b (fun he => hyu (he ▸ hb)) (hnotin b hb)
  rw [update_sides] at hy₂
  -- the colors
  obtain ⟨nodes₃, hset₃, hxtree₃, hsame₃⟩ := setColor_linked hxtree₂ hnx .red
  have hy₃ : nodes₃ y.addr = some ⟨c', some x.addr, sides d (some x.addr) (root u)⟩ := by
    rw [hsame₃ _ (Ne.symm hxy), hy₂, root_fork]
  have hu₃ : Linked nodes₃ (some y.addr) u := hu₂.congr fun b hb => hsame₃ b fun he => hxu (he ▸ hb)
  have hytree : Linked nodes₃ (some x.addr) (fork d c' y (fork d .red x s t) u) :=
    linked_fork.mpr ⟨by rw [hy₃, root_fork], hxtree₃, hu₃⟩
  have hny : (addrs (fork d c' y (fork d .red x s t) u)).Nodup := by
    simp only [nodup_addrs_fork, mem_addrs_fork, not_or]
    refine ⟨⟨Ne.symm hxy, fun hys => (hsy _ hys).1 rfl, hyt⟩, hyu, ⟨hxs, hxt, hns, hnt, fun b hb => (hsy b hb).2.1⟩, hnu, ?_⟩
    rintro b (rfl | hb | hb)
    · exact hxu
    · exact (hsy b hb).2.2
    · exact htu b hb
  obtain ⟨nodes₄, hset₄, hytree₄, hsame₄⟩ := setColor_linked hytree hny .black
  refine ⟨nodes₄, ?_, ⟨_, hytree₄⟩, fun b hb => ?_⟩
  · rw [root_fork] at hset₂
    simp [rotate, child, hx, hy, hset₁, hset₂, hset₃, hset₄]
  · simp only [mem_addrs_fork, not_or] at hb
    obtain ⟨hbx, hbs, hby, hbt, hbu⟩ := hb
    rw [hsame₄ b hby, hsame₃ b hbx, hsame₂ b hby (by simp [hbx, hbs, hbt]), hsame₁ b hbx hbt]

theorem rotateDouble_loose {z : Elem κ ν} {s v w : Tree κ ν} {b' : Color}
    (h : Loose nodes (fork d c x s (fork d.opposite c' y t (fork d.opposite b' z v w))))
    (hnodup : (addrs (fork d c x s (fork d.opposite c' y t (fork d.opposite b' z v w)))).Nodup) :
    ∃ nodes', rotateDouble nodes x.addr d = some (nodes', z.addr) ∧
      Loose nodes' (fork d .black z (fork d .red x s w) (fork d.opposite .red y t v)) ∧
      ∀ b, b ∉ addrs (fork d c x s (fork d.opposite c' y t (fork d.opposite b' z v w))) → nodes' b = nodes b := by
  obtain ⟨p, hlinked⟩ := h
  obtain ⟨hx, hs, hy⟩ := linked_fork.mp hlinked
  obtain ⟨hxs, hxy, hns, hny, hsy⟩ := nodup_addrs_fork.mp hnodup
  -- the inner rotation
  obtain ⟨nodes₁, hrotate₁, hz₁, hsame₁⟩ := rotate_loose ⟨_, hy⟩ hny
  have haddrs : addrs (fork d .black z w (fork d.opposite .red y t v)) =
      addrs (fork d.opposite c' y t (fork d.opposite b' z v w)) := by
    rw [← fork_turn d .black z (fork d.opposite .red y t v) w]
    exact congrArg (List.map Elem.addr) (elems_rotate ..)
  rw [fork_turn] at hz₁
  have hx₁ : nodes₁ x.addr = some ⟨c, p, sides d (root s) (some y.addr)⟩ := by rw [hsame₁ _ hxy, hx, root_fork]
  have hs₁ : Linked nodes₁ (some x.addr) s := hs.congr fun b hb => hsame₁ b (hsy b hb)
  have hnz : (addrs (fork d .black z w (fork d.opposite .red y t v))).Nodup := haddrs ▸ hny
  -- the outer one
  obtain ⟨nodes₂, hset₂, hx₂, hz₂, hsame₂⟩ := setChild_loose hx₁ (haddrs ▸ hxy) hz₁ hnz d.opposite
  rw [update_sides_opposite] at hx₂
  have hs₂ : Linked nodes₂ (some x.addr) s :=
    hs₁.congr fun b hb => hsame₂ b (fun he => hxs (he ▸ hb)) (haddrs ▸ hsy b hb)
  have hxtree : Loose nodes₂ (fork d c x s (fork d .black z w (fork d.opposite .red y t v))) :=
    ⟨p, linked_fork.mpr ⟨hx₂, hs₂, hz₂⟩⟩
  have hnx : (addrs (fork d c x s (fork d .black z w (fork d.opposite .red y t v)))).Nodup :=
    nodup_addrs_fork.mpr ⟨hxs, haddrs ▸ hxy, hns, hnz, haddrs ▸ hsy⟩
  obtain ⟨nodes₃, hrotate₃, hz₃, hsame₃⟩ := rotate_loose hxtree hnx
  refine ⟨nodes₃, ?_, hz₃, fun b hb => ?_⟩
  · rw [root_fork] at hset₂
    simp [rotateDouble, child, hx, hrotate₁, hset₂, hrotate₃]
  · have hb' := hb
    rw [mem_addrs_fork, not_or, not_or] at hb'
    obtain ⟨hbx, hbs, hby⟩ := hb'
    have hbz : b ∉ addrs (fork d .black z w (fork d.opposite .red y t v)) := haddrs ▸ hby
    have hbx' : b ∉ addrs (fork d c x s (fork d .black z w (fork d.opposite .red y t v))) := by
      rw [mem_addrs_fork, not_or, not_or]
      exact ⟨hbx, hbs, hbz⟩
    rw [hsame₃ b hbx', hsame₂ b hbx hbz, hsame₁ b hby]

/-! ## Above a subtree -/

/-- The pointer to a subtree. -/
theorem LinkedPath.setHole (h : LinkedPath nodes path hole) {z : Option Nat}
    (hz : ∀ b, z = some b → b ∉ pathAddrs path ∧ ∃ m, nodes b = some m) (hnodup : (pathAddrs path).Nodup) :
    ∃ nodes', setChild nodes (up path) (side path) z = some nodes' ∧ LinkedPath nodes' path z ∧
      (∀ b m, z = some b → nodes b = some m → nodes' b = some { m with parent := some (up path) }) ∧
      ∀ b, b ≠ up path → z ≠ some b → nodes' b = nodes b := by
  cases path with
  | nil =>
    have hhead : nodes head = some ⟨.red, none, sides .right hole none⟩ := h
    obtain ⟨nodes', hset, ha', hroot, hsame⟩ := exists_setChild hhead .right fun b hb =>
      ⟨fun he => (hz b hb).1 (he ▸ List.mem_cons_self), (hz b hb).2⟩
    rw [update_sides] at ha'
    exact ⟨nodes', hset, ha', hroot, hsame⟩
  | cons f path =>
    obtain ⟨hf, hs, hpath⟩ := h
    obtain ⟨hfnot, hn⟩ := List.nodup_cons.mp hnodup
    have hself : addr f ∈ pathAddrs (f :: path) := List.mem_cons_self
    obtain ⟨nodes', hset, ha', hroot, hsame⟩ := exists_setChild hf f.dir fun b hb =>
      ⟨fun he => (hz b hb).1 (he ▸ hself), (hz b hb).2⟩
    rw [update_sides] at ha'
    have hother : ∀ b ∈ addrs f.sibling ++ pathAddrs path, nodes' b = nodes b := by
      intro b hb
      refine hsame b (fun he => hfnot (he ▸ hb)) fun he => (hz b he).1 ?_
      exact List.mem_cons_of_mem _ hb
    refine ⟨nodes', hset, ⟨ha', hs.congr fun b hb => hother b ?_, hpath.congr fun b hb => hother b ?_⟩, hroot, hsame⟩
    · exact List.mem_append_left _ hb
    · exact List.mem_append_right _ hb

theorem sideOf_cons (hf : nodes (addr f) = some ⟨c, p, sides f.dir (some a) (root f.sibling)⟩) (hs : root f.sibling ≠ some a) :
    sideOf nodes (addr f) (some a) = some f.dir := by
  cases hd : f.dir with
  | left => simp [sideOf, child, hf, hd, sides, hs]
  | right => simp [sideOf, child, hf, hd, sides]

/-- `p->child(DirRight) == node` finds the side of a node. -/
theorem sideOf_up (h : LinkedPath nodes path (some a)) (ha : a ∉ pathAddrs path) :
    sideOf nodes (up path) (some a) = some (side path) := by
  cases path with
  | nil =>
    have hhead : nodes head = some ⟨.red, none, sides .right (some a) none⟩ := h
    simp [sideOf, child, up, side, hhead, sides]
  | cons f path => exact sideOf_cons h.1 fun he => ha (by simp [pathAddrs, mem_addrs_of_root he])

/-- `p->child(DirLeft) == node` finds it as well. -/
theorem exists_leftChild_up (h : LinkedPath nodes path (some a)) (ha : a ∉ pathAddrs path) :
    ∃ left, child nodes (up path) .left = some left ∧ (if left = some a then Dir.left else .right) = side path := by
  cases path with
  | nil =>
    have hhead : nodes head = some ⟨.red, none, sides .right (some a) none⟩ := h
    exact ⟨none, by simp [child, up, hhead, sides], rfl⟩
  | cons f path =>
    obtain ⟨hf, -⟩ := h
    have hs : root f.sibling ≠ some a := fun he => ha (by simp [pathAddrs, mem_addrs_of_root he])
    cases hd : f.dir with
    | left => exact ⟨some a, by simp [child, up, hf, hd, sides], by simp [side, hd]⟩
    | right => exact ⟨root f.sibling, by simp [child, up, hf, hd, sides], by simp [side, hd, hs]⟩

theorem up_mem (path : Path κ ν) : up path ∈ pathAddrs path := by
  cases path <;> exact List.mem_cons_self

/-- The node `q` takes the place of the node at `a`, also if it is a child of it. -/
theorem replace_path {n m : Node} {q : Nat} (hpath : LinkedPath nodes path (some a)) (hnodup : (pathAddrs path).Nodup)
    (hap : a ∉ pathAddrs path) (ha : nodes a = some n) (hparent : n.parent = some (up path)) (hq : nodes q = some m)
    (hqa : q ≠ a) (hqp : q ∉ pathAddrs path)
    (hchildren : ∀ d b, n.children d = some b → b ≠ q → b ≠ a ∧ b ∉ pathAddrs path ∧ ∃ k, nodes b = some k)
    (hdistinct : ∀ b, n.children .left = some b → n.children .right ≠ some b) :
    ∃ nodes', replace nodes a q = some nodes' ∧
      nodes' q = some ⟨n.color, some (up path), fun d => if n.children d = some q then none else n.children d⟩ ∧
      LinkedPath nodes' path (some q) ∧
      (∀ d b k, n.children d = some b → b ≠ q → nodes b = some k → nodes' b = some { k with parent := some q }) ∧
      ∀ b, b ≠ q → b ∉ pathAddrs path → (∀ d, n.children d ≠ some b) → nodes' b = nodes b := by
  have hchild : ∀ d b, (if n.children d = some q then none else n.children d) = some b → n.children d = some b ∧ b ≠ q := by
    intro d b hb
    split_ifs at hb with hd
    exact ⟨hb, fun he => hd (he ▸ hb)⟩
  -- the children
  obtain ⟨nodes₁, hset₁, hq₁, hleft₁, hsame₁⟩ := exists_setChild hq .left
    (z := if n.children .left = some q then none else n.children .left) fun b hb =>
      ⟨(hchild _ b hb).2, (hchildren _ b (hchild _ b hb).1 (hchild _ b hb).2).2.2⟩
  have ha₁ : nodes₁ a = some n :=
    (hsame₁ a (Ne.symm hqa) fun he => (hchildren _ a (hchild _ a he).1 (hchild _ a he).2).1 rfl).trans ha
  obtain ⟨nodes₂, hset₂, hq₂, hright₂, hsame₂⟩ := exists_setChild hq₁ .right
    (z := if n.children .right = some q then none else n.children .right) fun b hb => by
      obtain ⟨hb, hbq⟩ := hchild _ b hb
      obtain ⟨-, -, k, hk⟩ := hchildren _ b hb hbq
      exact ⟨hbq, k, (hsame₁ b hbq fun he => hdistinct b (hchild _ b he).1 hb).trans hk⟩
  have ha₂ : nodes₂ a = some n :=
    (hsame₂ a (Ne.symm hqa) fun he => (hchildren _ a (hchild _ a he).1 (hchild _ a he).2).1 rfl).trans ha₁
  have hpath₂ : ∀ b ∈ pathAddrs path, nodes₂ b = nodes b := by
    intro b hb
    have hbq : b ≠ q := fun he => hqp (he ▸ hb)
    rw [hsame₂ b hbq fun he => (hchildren _ b (hchild _ b he).1 hbq).2.1 hb,
      hsame₁ b hbq fun he => (hchildren _ b (hchild _ b he).1 hbq).2.1 hb]
  -- the color, and the child of the parent
  let k₃ : Node := ⟨n.color, m.parent, Function.update (Function.update m.children .left
    (if n.children .left = some q then none else n.children .left)) .right
    (if n.children .right = some q then none else n.children .right)⟩
  let nodes₃ := Function.update nodes₂ q (some k₃)
  have hcolor : setColor nodes₂ q n.color = some nodes₃ := by simp [setColor, hq₂, nodes₃, k₃]
  have hother₃ : ∀ b, b ≠ q → nodes₃ b = nodes₂ b := fun b hb => Function.update_of_ne hb _ _
  have hpath₃ : LinkedPath nodes₃ path (some a) := hpath.congr fun b hb => by
    rw [hother₃ b fun he => hqp (he ▸ hb), hpath₂ b hb]
  obtain ⟨left, hleft, hside⟩ := exists_leftChild_up hpath₃ hap
  obtain ⟨nodes₄, hset₄, hpath₄, hq₄, hsame₄⟩ := hpath₃.setHole (z := some q) (by
    rintro _ ⟨⟩
    exact ⟨hqp, k₃, Function.update_self _ _ _⟩) hnodup
  have hother₄ : ∀ b, b ≠ q → b ∉ pathAddrs path → nodes₄ b = nodes₂ b := by
    intro b hbq hb
    rw [hsame₄ b (fun he => hb (he ▸ up_mem path)) fun he => hbq (Option.some.inj he).symm, hother₃ b hbq]
  refine ⟨nodes₄, ?_, ?_, hpath₄, fun d b k hb hbq hk => ?_, fun b hbq hb hnot => ?_⟩
  · simp [replace, child, ha, ha₁, ha₂, hset₁, hset₂, hcolor, hparent]
    rw [show (nodes₃ (up path)).map (fun k => k.children .left) = some left from hleft]
    simp only [Option.bind_some, hside]
    exact hset₄
  · rw [hq₄ q k₃ rfl (Function.update_self _ _ _)]
    simp only [k₃, Option.some.injEq, Node.mk.injEq, true_and]
    funext d
    cases d <;> simp
  · obtain ⟨-, hbp, -⟩ := hchildren d b hb hbq
    rw [hother₄ b hbq hbp]
    have hz : (if n.children d = some q then none else n.children d) = some b := by
      rw [if_neg fun he => hbq (Option.some.inj (hb.symm.trans he)), hb]
    cases d with
    | left => rw [hsame₂ b hbq fun he => hdistinct b hb (hchild _ b he).1, hleft₁ b k hz hk]
    | right =>
      have hb₁ : nodes₁ b = some k := (hsame₁ b hbq fun he => hdistinct b (hchild _ b he).1 hb).trans hk
      rw [hright₂ b k hz hb₁]
  · rw [hother₄ b hbq hb, hsame₂ b hbq fun he => hnot _ (hchild _ b he).1, hsame₁ b hbq fun he => hnot _ (hchild _ b he).1]

/-- `p`, which is `NULL` above the root. -/
def above : Path κ ν → Option Nat
  | [] => none
  | f :: _ => some (addr f)

/-- The node beside a subtree is red. -/
def redBeside : Path κ ν → Bool
  | [] => false
  | f :: _ => red f.sibling

theorem isRed_above (h : LinkedPath nodes path hole) : isRed nodes (above path) = some (redAbove path) := by
  cases path with
  | nil => rfl
  | cons f path => simp [above, isRed, h.1, redAbove]

/-- The pointer to a subtree, read from its parent. -/
theorem child_up (h : LinkedPath nodes path hole) : child nodes (up path) (side path) = some hole := by
  cases path with
  | nil =>
    have hhead : nodes head = some ⟨.red, none, sides .right hole none⟩ := h
    simp [child, up, side, hhead]
  | cons f path => simp [child, up, side, h.1]

/-! ## The whole tree -/

structure Stored (nodes : Nodes) (path : Path κ ν) (t : Tree κ ν) : Prop where
  chain : LinkedPath nodes path (root t)
  tree : Linked nodes (some (up path)) t
  nodup : (pathAddrs path ++ addrs t).Nodup

/-- The addresses of the nodes of a tree and of the dummy root. -/
def places (t : Tree κ ν) : List Nat := head :: addrs t

/-- The elements of a tree stay in order, and no node that is not in it changes. -/
structure Reshaped (nodes : Nodes) (t : Tree κ ν) (nodes' : Nodes) (t' : Tree κ ν) : Prop where
  elems_eq : elems t' = elems t
  same : ∀ b, b ∉ places t → nodes' b = nodes b

theorem Reshaped.places_eq {t' : Tree κ ν} (h : Reshaped nodes t nodes' t') : places t' = places t := by
  rw [places, places, addrs, addrs, h.elems_eq]

theorem Reshaped.trans {nodes'' : Nodes} {t' t'' : Tree κ ν} (h : Reshaped nodes t nodes' t')
    (h' : Reshaped nodes' t' nodes'' t'') : Reshaped nodes t nodes'' t'' :=
  ⟨h'.elems_eq.trans h.elems_eq, fun b hb => (h'.same b (h.places_eq ▸ hb)).trans (h.same b hb)⟩

theorem Reshaped.refl (nodes : Nodes) (t : Tree κ ν) : Reshaped nodes t nodes t := ⟨rfl, fun _ _ => rfl⟩

theorem stored_cons {s : Tree κ ν} : Stored nodes (⟨d, ⟨c, x⟩, s⟩ :: path) t ↔ Stored nodes path (fork d c x t s) := by
  have hperm : (pathAddrs (⟨d, ⟨c, x⟩, s⟩ :: path) ++ addrs t).Perm (pathAddrs path ++ addrs (fork d c x t s)) :=
    (perm_places _ _).trans (perm_places path (fork d c x t s)).symm
  constructor
  · rintro ⟨⟨hx, hs, hpath⟩, ht, hnodup⟩
    refine ⟨?_, linked_fork.mpr ⟨hx, ht, hs⟩, hperm.nodup_iff.mp hnodup⟩
    rw [root_fork]
    exact hpath
  · rintro ⟨hpath, htree, hnodup⟩
    obtain ⟨hx, ht, hs⟩ := linked_fork.mp htree
    rw [root_fork] at hpath
    exact ⟨⟨hx, hs, hpath⟩, ht, hperm.nodup_iff.mpr hnodup⟩

/-- A subtree that is stored, and the whole tree. -/
theorem stored_plug : Stored nodes path t ↔ Stored nodes [] (plug path t) := by
  induction path generalizing t with
  | nil => exact Iff.rfl
  | cons f path ih =>
    obtain ⟨d, ⟨c, x⟩, s⟩ := f
    exact stored_cons.trans ih

namespace Stored

theorem mem_places : b ∈ places (plug path t) ↔ b ∈ pathAddrs path ∨ b ∈ addrs t := by
  rw [places, ← (perm_places path t).mem_iff, List.mem_append]

theorem nodup_path (h : Stored nodes path t) : (pathAddrs path).Nodup := (List.nodup_append.mp h.nodup).1

theorem nodup_tree (h : Stored nodes path t) : (addrs t).Nodup := (List.nodup_append.mp h.nodup).2.1

theorem apart (h : Stored nodes path t) (hb : b ∈ addrs t) : b ∉ pathAddrs path :=
  fun hpath => (List.nodup_append.mp h.nodup).2.2 b hpath b hb rfl

/-- After a change within a subtree, `setChild` of its parent. -/
theorem graft {nodes₁ : Nodes} (h : Stored nodes path t) (hsame : ∀ b, b ∉ addrs t → nodes₁ b = nodes b)
    (hu : Loose nodes₁ u) (he : elems u = elems t) :
    ∃ nodes₂, setChild nodes₁ (up path) (side path) (root u) = some nodes₂ ∧ Stored nodes₂ path u ∧
      Reshaped nodes (plug path t) nodes₂ (plug path u) := by
  have haddrs : addrs u = addrs t := by rw [addrs, addrs, he]
  obtain ⟨p, hu⟩ := hu
  have hpath₁ : LinkedPath nodes₁ path (root t) := h.chain.congr fun b hb => hsame b fun hbt => h.apart hbt hb
  obtain ⟨nodes₂, hset, hpath₂, hroot₂, hsame₂⟩ := hpath₁.setHole (z := root u)
    (fun b hb => ⟨h.apart (haddrs ▸ mem_addrs_of_root hb), hu.exists_root hb⟩) h.nodup_path
  have hup : up path ∈ pathAddrs path := by cases path <;> exact List.mem_cons_self
  refine ⟨nodes₂, hset, ⟨hpath₂, ?_, haddrs ▸ h.nodup⟩, elems_plug_congr path he, fun b hb => ?_⟩
  · refine hu.reparent (haddrs ▸ h.nodup_tree) hroot₂ fun b hb hne => hsame₂ b (fun hbu => ?_) hne
    exact h.apart (haddrs ▸ hb) (hbu ▸ hup)
  · rw [mem_places, not_or] at hb
    rw [hsame₂ b (fun he => hb.1 (he ▸ hup)) fun he => hb.2 (haddrs ▸ mem_addrs_of_root he), hsame b hb.2]

theorem setColor (h : Stored nodes path (fork d c x t u)) (c' : Color) :
    ∃ nodes', MojRbTree.setColor nodes x.addr c' = some nodes' ∧ Stored nodes' path (fork d c' x t u) ∧
      Reshaped nodes (plug path (fork d c x t u)) nodes' (plug path (fork d c' x t u)) := by
  obtain ⟨nodes', hset, htree, hsame⟩ := setColor_linked h.tree h.nodup_tree c'
  have hx : x.addr ∈ addrs (fork d c x t u) := by simp
  have helems : elems (fork d c' x t u) = elems (fork d c x t u) := by rw [elems_fork, elems_fork]
  have haddrs : addrs (fork d c' x t u) = addrs (fork d c x t u) := by rw [addrs, addrs, helems]
  refine ⟨nodes', hset, ⟨?_, htree, haddrs ▸ h.nodup⟩, elems_plug_congr path helems, fun b hb => hsame b fun he => ?_⟩
  swap
  · exact hb (mem_places.mpr (.inr (he ▸ hx)))
  have hpath := h.chain.congr fun b hb => hsame b fun he => h.apart (he ▸ hx) hb
  rwa [root_fork] at hpath ⊢

theorem blacken (h : Stored nodes path t) {a : Nat} (ha : root t = some a) :
    ∃ nodes', MojRbTree.setColor nodes a .black = some nodes' ∧ Stored nodes' path (BinTree.blacken t) ∧
      Reshaped nodes (plug path t) nodes' (plug path (BinTree.blacken t)) := by
  cases t with
  | nil => cases ha
  | node l x r =>
    cases ha
    exact h.setColor (d := .left) .black

/-- The children of a node. -/
theorem child_eq {s : Tree κ ν} (h : Stored nodes path (fork d c x t s)) :
    child nodes x.addr d = some (root t) ∧ child nodes x.addr d.opposite = some (root s) := by
  obtain ⟨hx, -⟩ := linked_fork.mp h.tree
  simp [child, hx]

theorem blackenChildren {s : Tree κ ν} (h : Stored nodes path (fork d c x t s)) (ht : t ≠ nil) (hs : s ≠ nil) :
    ∃ nodes', MojRbTree.blackenChildren nodes x.addr = some nodes' ∧
      Stored nodes' path (fork d c x (BinTree.blacken t) (BinTree.blacken s)) ∧
      Reshaped nodes (plug path (fork d c x t s)) nodes'
        (plug path (fork d c x (BinTree.blacken t) (BinTree.blacken s))) := by
  -- the left one is the first
  wlog hd : d = .left generalizing d t s
  · obtain rfl : d = Dir.left.opposite := Dir.eq_opposite_of_ne hd
    simp only [fork_turn] at h ⊢
    exact this h hs ht rfl
  subst hd
  obtain ⟨c₁, y, t₁, t₂, rfl⟩ := exists_fork_of_ne_nil ht .left
  obtain ⟨c₂, z, s₁, s₂, rfl⟩ := exists_fork_of_ne_nil hs .left
  have hleft := h.child_eq.1
  obtain ⟨nodes₁, hset₁, h₁, hshape₁⟩ := (stored_cons.mpr h).blacken root_fork
  rw [stored_cons] at h₁
  have hright := h₁.child_eq.2
  rw [← fork_turn] at h₁
  obtain ⟨nodes₂, hset₂, h₂, hshape₂⟩ := (stored_cons.mpr h₁).blacken root_fork
  rw [stored_cons, fork_turn] at h₂
  rw [plug_cons, plug_cons, fork_turn, fork_turn] at hshape₂
  refine ⟨nodes₂, ?_, h₂, hshape₁.trans hshape₂⟩
  rw [root_fork] at hleft hright
  simp only [Dir.opposite] at hright
  simp [MojRbTree.blackenChildren, hleft, hset₁, hright, hset₂]

theorem isRed_eq (h : Stored nodes path t) : isRed nodes (root t) = some (red t) := isRed_root h.tree

theorem isRed_children {s : Tree κ ν} (h : Stored nodes path (fork d c x t s)) :
    isRed nodes (root t) = some (red t) ∧ isRed nodes (root s) = some (red s) := by
  obtain ⟨-, ht, hs⟩ := linked_fork.mp h.tree
  exact ⟨isRed_root ht, isRed_root hs⟩

/-- A rotation of a subtree. -/
theorem rotate {s : Tree κ ν} (h : Stored nodes path (fork d c x s (fork d c' y t u))) :
    ∃ nodes₁ nodes₂, MojRbTree.rotate nodes x.addr d = some (nodes₁, y.addr) ∧
      setChild nodes₁ (up path) (side path) (some y.addr) = some nodes₂ ∧
      Stored nodes₂ path (fork d .black y (fork d .red x s t) u) ∧
      Reshaped nodes (plug path (fork d c x s (fork d c' y t u))) nodes₂
        (plug path (fork d .black y (fork d .red x s t) u)) := by
  obtain ⟨nodes₁, hrotate, htree, hsame⟩ := rotate_loose ⟨_, h.tree⟩ h.nodup_tree
  obtain ⟨nodes₂, hset, hstored, hsame₂⟩ := h.graft hsame htree (elems_rotate ..)
  rw [root_fork] at hset
  exact ⟨nodes₁, nodes₂, hrotate, hset, hstored, hsame₂⟩

theorem rotateDouble {z : Elem κ ν} {s v w : Tree κ ν} {b' : Color}
    (h : Stored nodes path (fork d c x s (fork d.opposite c' y t (fork d.opposite b' z v w)))) :
    ∃ nodes₁ nodes₂, MojRbTree.rotateDouble nodes x.addr d = some (nodes₁, z.addr) ∧
      setChild nodes₁ (up path) (side path) (some z.addr) = some nodes₂ ∧
      Stored nodes₂ path (fork d .black z (fork d .red x s w) (fork d.opposite .red y t v)) ∧
      Reshaped nodes (plug path (fork d c x s (fork d.opposite c' y t (fork d.opposite b' z v w)))) nodes₂
        (plug path (fork d .black z (fork d .red x s w) (fork d.opposite .red y t v))) := by
  obtain ⟨nodes₁, hrotate, htree, hsame⟩ := rotateDouble_loose ⟨_, h.tree⟩ h.nodup_tree
  obtain ⟨nodes₂, hset, hstored, hsame₂⟩ := h.graft hsame htree (elems_rotateDouble ..)
  rw [root_fork] at hset
  exact ⟨nodes₁, nodes₂, hrotate, hset, hstored, hsame₂⟩

/-- A new node takes the place of another. -/
theorem replace {s : Tree κ ν} {m : Node} (h : Stored nodes path (fork d c x t s)) (hy : nodes y.addr = some m)
    (hfresh : y.addr ∉ places (plug path (fork d c x t s))) :
    ∃ nodes', MojRbTree.replace nodes x.addr y.addr = some nodes' ∧ Stored nodes' path (fork d c y t s) := by
  obtain ⟨hx, ht, hs⟩ := linked_fork.mp h.tree
  obtain ⟨hxt, hxs, hnt, hns, hts⟩ := nodup_addrs_fork.mp h.nodup_tree
  simp only [mem_places, mem_addrs_fork, not_or] at hfresh
  obtain ⟨hyp, hyx, hyt, hys⟩ := hfresh
  have hchain := h.chain
  rw [root_fork] at hchain
  have hroots : ∀ e b, sides d (root t) (root s) e = some b → root t = some b ∨ root s = some b := by
    intro e b hb
    by_cases he : e = d
    · subst he
      exact .inl (by simpa using hb)
    · rw [Dir.eq_opposite_of_ne he, sides_opposite] at hb
      exact .inr hb
  have hmem : ∀ b ∈ addrs t ++ addrs s, b ≠ x.addr ∧ b ∉ pathAddrs path ∧ b ≠ y.addr := by
    intro b hb
    rcases List.mem_append.mp hb with hb | hb
    · exact ⟨fun he => hxt (he ▸ hb), h.apart (by simp [hb]), fun he => hyt (he ▸ hb)⟩
    · exact ⟨fun he => hxs (he ▸ hb), h.apart (by simp [hb]), fun he => hys (he ▸ hb)⟩
  have hrootmem : ∀ b, root t = some b ∨ root s = some b → b ∈ addrs t ++ addrs s := by
    rintro b (hb | hb)
    · exact List.mem_append_left _ (mem_addrs_of_root hb)
    · exact List.mem_append_right _ (mem_addrs_of_root hb)
  have hchildren : ∀ e b, sides d (root t) (root s) e = some b → b ≠ y.addr →
      b ≠ x.addr ∧ b ∉ pathAddrs path ∧ ∃ k, nodes b = some k := by
    intro e b hb _
    have hb := hroots e b hb
    obtain ⟨hbx, hbp, -⟩ := hmem b (hrootmem b hb)
    exact ⟨hbx, hbp, hb.elim ht.exists_root hs.exists_root⟩
  have hdistinct : ∀ b, sides d (root t) (root s) .left = some b → sides d (root t) (root s) .right ≠ some b := by
    intro b hl hr
    cases d with
    | left => exact hts b (mem_addrs_of_root hl) (mem_addrs_of_root hr)
    | right => exact hts b (mem_addrs_of_root hr) (mem_addrs_of_root hl)
  obtain ⟨nodes', hreplace, hy', hchain', hroot', hsame'⟩ := replace_path hchain h.nodup_path (h.apart (by simp)) hx rfl hy
    hyx hyp hchildren hdistinct
  have hkeep : ∀ b ∈ addrs t ++ addrs s, root t ≠ some b → root s ≠ some b → nodes' b = nodes b := by
    intro b hb hbt hbs
    obtain ⟨-, hbp, hby⟩ := hmem b hb
    exact hsame' b hby hbp fun e he => (hroots e b he).elim hbt hbs
  have hnode : nodes' y.addr = some ⟨c, some (up path), sides d (root t) (root s)⟩ := by
    rw [hy']
    congr 2
    funext e
    exact if_neg fun he => (hmem _ (hrootmem _ (hroots e _ he))).2.2 rfl
  refine ⟨nodes', hreplace, ?_, linked_fork.mpr ⟨hnode, ?_, ?_⟩, ?_⟩
  · rwa [root_fork]
  · refine ht.reparent hnt (fun b k hb hk => ?_) fun b hb hne => hkeep b (List.mem_append_left _ hb) hne fun he => ?_
    · exact hroot' d b k (by simp [hb]) (hmem b (hrootmem b (.inl hb))).2.2 hk
    · exact hts b hb (mem_addrs_of_root he)
  · refine hs.reparent hns (fun b k hb hk => ?_) fun b hb hne => hkeep b (List.mem_append_right _ hb) (fun he => ?_) hne
    · exact hroot' d.opposite b k (by simp [hb]) (hmem b (hrootmem b (.inr hb))).2.2 hk
    · exact hts b (mem_addrs_of_root he) hb
  · refine List.nodup_append.mpr ⟨h.nodup_path, nodup_addrs_fork.mpr ⟨hyt, hys, hnt, hns, hts⟩, fun b hb b' hb' he => ?_⟩
    subst he
    rcases mem_addrs_fork.mp hb' with rfl | hb'
    · exact hyp hb
    · exact (hmem b (List.mem_append.mpr hb')).2.1 hb

end Stored

end MojRbTree

end Db8
