import Db8.Lib.RedBlack
import Mathlib

/-!
# Core.MojRbTreeNodes

The ordered trees behind `MojSet` and `MojMap`: how they are written to, node by node.

* `Node`, `Heap`      — a node with its pointers, and the memory with all nodes and what they hold.
* `setChild`, `rotate`, `rotateDouble`, `replace` — the functions of a node.
* `Impl`, `MojRbTree` — `m_impl` of one tree, with the memory.
* `put`, `del`        — with their loops; `insertOrFlip`, `fixRed` and `pushRed` are what one round does to the nodes.
* `validate`          — the assertions of the source about a tree.

A function returns `none` where the source follows a pointer that is `NULL` or leads to a node that is
deleted, and where a loop has not ended after more rounds than there is fuel for. Allocation succeeds.
-/

namespace Db8

open Lib.BinTree (Color Dir)

namespace MojRbTree

/-- `Node`, with the values of its constructor. -/
structure Node where
  color : Color := .red
  parent : Option Nat := none
  children : Dir → Option Nat := fun _ => none

abbrev Nodes := Nat → Option Node

/-- The memory: what a subclass adds to a node is apart, and no address from `next` on is in use. -/
structure Heap (κ ν : Type) where
  nodes : Nodes
  items : Nat → Option (κ × ν)
  next : Nat

/-- The address of the dummy root, a local variable. -/
def head : Nat := 0

/-! ## One node -/

def child (nodes : Nodes) (a : Nat) (dir : Dir) : Option (Option Nat) := (nodes a).map fun n => n.children dir

def setColor (nodes : Nodes) (a : Nat) (color : Color) : Option Nodes :=
  (nodes a).map fun n => Function.update nodes a (some { n with color := color })

def setParent (nodes : Nodes) (a : Nat) (parent : Option Nat) : Option Nodes :=
  (nodes a).map fun n => Function.update nodes a (some { n with parent := parent })

def setChild (nodes : Nodes) (a : Nat) (dir : Dir) (node : Option Nat) : Option Nodes := do
  let n ← nodes a
  let nodes := Function.update nodes a (some { n with children := Function.update n.children dir node })
  match node with
  | none => return nodes
  | some c => setParent nodes c (some a)

def isRed (nodes : Nodes) : Option Nat → Option Bool
  | none => some false
  | some a => (nodes a).map fun n => n.color = .red

def rotate (nodes : Nodes) (a : Nat) (dir : Dir) : Option (Nodes × Nat) := do
  let save ← (← child nodes a dir.opposite)
  let inner ← child nodes save dir
  let nodes ← setChild nodes a dir.opposite inner
  let nodes ← setChild nodes save dir (some a)
  let nodes ← setColor nodes a .red
  let nodes ← setColor nodes save .black
  return (nodes, save)

def rotateDouble (nodes : Nodes) (a : Nat) (dir : Dir) : Option (Nodes × Nat) := do
  let c ← (← child nodes a dir.opposite)
  let (nodes, c) ← rotate nodes c dir.opposite
  let nodes ← setChild nodes a dir.opposite (some c)
  rotate nodes a dir

/-- Both children become black. -/
def blackenChildren (nodes : Nodes) (a : Nat) : Option Nodes := do
  let nodes ← setColor nodes (← (← child nodes a .left)) .black
  setColor nodes (← (← child nodes a .right)) .black

/-- `p->child(DirRight) == node`, as a direction. -/
def sideOf (nodes : Nodes) (p : Nat) (node : Option Nat) : Option Dir :=
  (child nodes p .right).map fun c => if c = node then .right else .left

/-- `a->replace(node)`. -/
def replace (nodes : Nodes) (a node : Nat) : Option Nodes := do
  let left ← child nodes a .left
  let nodes ← setChild nodes node .left (if left = some node then none else left)
  let right ← child nodes a .right
  let nodes ← setChild nodes node .right (if right = some node then none else right)
  let n ← nodes a
  let nodes ← setColor nodes node n.color
  match n.parent with
  | none => return nodes
  | some p =>
    let left ← child nodes p .left
    setChild nodes p (if left = some a then .left else .right) (some node)

/-! ## The tree -/

structure Impl where
  root : Nat
  size : Nat
  refcount : Nat

end MojRbTree

structure MojRbTree (κ ν : Type) extends MojRbTree.Heap κ ν where
  impl : Option MojRbTree.Impl

namespace MojRbTree

variable {κ ν : Type}

/-- `new MapNode(key, val)`. -/
def Heap.alloc (h : Heap κ ν) (item : κ × ν) : Heap κ ν :=
  ⟨Function.update h.nodes h.next (some {}), Function.update h.items h.next (some item), h.next + 1⟩

def Heap.deleteNode (h : Heap κ ν) (a : Nat) : Heap κ ν :=
  { h with nodes := Function.update h.nodes a none, items := Function.update h.items a none }

/-- `clone(dest, src)`: a copy of what is below a node. -/
def cloneNodes : Nat → Heap κ ν → Nat → Option (Heap κ ν × Nat)
  | 0, _, _ => none
  | fuel + 1, h, src => do
    let n ← h.nodes src
    let item ← h.items src
    let a := h.next
    let h := h.alloc item
    let nodes ← setColor h.nodes a n.color
    let h ← [Dir.left, Dir.right].foldlM (fun (h : Heap κ ν) dir =>
      match n.children dir with
      | none => some h
      | some c => do
        let (h, c) ← cloneNodes fuel h c
        let nodes ← setChild h.nodes a dir (some c)
        return { h with nodes := nodes }) { h with nodes := nodes }
    return (h, a)

def size (s : MojRbTree κ ν) : Nat := s.impl.elim 0 Impl.size

def empty (s : MojRbTree κ ν) : Bool := s.size = 0

/-- A tree that others share goes on with a copy. -/
def ensureWritable (s : MojRbTree κ ν) : Option (MojRbTree κ ν) :=
  match s.impl with
  | none => some s
  | some m =>
    if 1 < m.refcount then do
      let (h, root) ← cloneNodes m.size s.toHeap m.root
      return ⟨h, some ⟨root, m.size, 1⟩⟩
    else some s

variable [LinearOrder κ]

def compareKey (items : Nat → Option (κ × ν)) (a : Nat) (key : κ) : Option Ordering :=
  (items a).map fun item => cmp item.1 key

/-- Where the search goes on: `comp < 0`. -/
def dirOf (comp : Ordering) : Dir := if comp = .lt then .right else .left

theorem dirOf_cmp_right {a b : κ} : dirOf (cmp a b) = .right ↔ a < b := by
  rw [← cmp_eq_lt_iff, dirOf]
  split_ifs with h <;> simp [h]

/-! ## Putting -/

/-- The first part of a round: the new node goes to where there is none, or two red children give their
color to their parent. Returns `q`, and if it is the new node. -/
def insertOrFlip (nodes : Nodes) (node : Nat) (p q : Option Nat) (dir : Dir) : Option (Nodes × Nat × Bool) :=
  match q with
  | none => do
    let nodes ← setChild nodes (← p) dir (some node)
    return (nodes, node, true)
  | some q => do
    let left ← child nodes q .left
    let right ← child nodes q .right
    if (← isRed nodes left) && (← isRed nodes right) then
      let nodes ← setColor nodes q .red
      let nodes ← blackenChildren nodes q
      return (nodes, q, false)
    else return (nodes, q, false)

/-- The second part: a red node with a red parent. -/
def fixRed (nodes : Nodes) (t : Nat) (g p : Option Nat) (q : Nat) (last : Dir) : Option Nodes := do
  if (← isRed nodes (some q)) && (← isRed nodes p) then
    let dir2 ← sideOf nodes t g
    let g ← g
    let c ← child nodes (← p) last
    if c = some q then
      let (nodes, c) ← rotate nodes g last.opposite
      setChild nodes t dir2 (some c)
    else
      let (nodes, c) ← rotateDouble nodes g last.opposite
      setChild nodes t dir2 (some c)
  else return nodes

/-- The search down the tree. Returns the node that the new one has replaced, if there was one with its key. -/
def putLoop (items : Nat → Option (κ × ν)) (node : Nat) (key : κ) :
    Nat → Nodes → Nat → Option Nat → Option Nat → Option Nat → Dir → Dir → Option (Nodes × Option Nat)
  | 0, _, _, _, _, _, _, _ => none
  | fuel + 1, nodes, t, g, p, q, dir, last => do
    let (nodes, q, inserted) ← insertOrFlip nodes node p q dir
    let nodes ← fixRed nodes t g p q last
    if inserted then return (nodes, none)
    else
      let comp ← compareKey items q key
      if comp = .eq then
        let nodes ← replace nodes q node
        return (nodes, some q)
      else
        let next ← child nodes q (dirOf comp)
        putLoop items node key fuel nodes (g.getD t) p (some q) next (dirOf comp) dir

/-- `put(node, key)`. -/
def putNode (s : MojRbTree κ ν) (node : Nat) (key : κ) : Option (MojRbTree κ ν) := do
  let s ← ensureWritable s
  if s.empty then
    let nodes ← setColor s.nodes node .black
    return { s with nodes := nodes, impl := some ⟨node, 1, 1⟩ }
  else
    let m ← s.impl
    let nodes := Function.update s.nodes head (some {})
    let nodes ← setChild nodes head .right (some m.root)
    let (nodes, replaced) ← putLoop s.items node key (2 * m.size + 2) nodes head none none (some m.root) .left .left
    let root ← (← child nodes head .right)
    let nodes ← setParent nodes root none
    let nodes ← setColor nodes root .black
    let h : Heap κ ν := { s.toHeap with nodes := Function.update nodes head none }
    match replaced with
    | none => return ⟨h, some { m with root := root, size := m.size + 1 }⟩
    | some q => return ⟨h.deleteNode q, some { m with root := root }⟩

/-- `MojMap::put`. -/
def put (s : MojRbTree κ ν) (key : κ) (val : ν) : Option (MojRbTree κ ν) :=
  putNode { s with toHeap := s.alloc (key, val) } s.next key

/-- `put(tree)`, with the entries of another tree in their order. -/
def putTree (s : MojRbTree κ ν) : List (κ × ν) → Option (MojRbTree κ ν)
  | [] => some s
  | entry :: entries => do putTree (← put s entry.1 entry.2) entries

/-! ## Deleting -/

/-- A round on the way down: the node `q` that the search is at, or the child it goes to next, becomes red.
Returns the parent of `q`. -/
def pushRed (nodes : Nodes) (g : Option Nat) (p q : Nat) (dir last : Dir) : Option (Nodes × Nat) := do
  let next ← child nodes q dir
  let other ← child nodes q dir.opposite
  if (← isRed nodes (some q)) || (← isRed nodes next) then return (nodes, p)
  else if (← isRed nodes other) then
    let (nodes, c) ← rotate nodes q dir
    let nodes ← setChild nodes p last (some c)
    return (nodes, ← (← child nodes p last))
  else
    match ← child nodes p last.opposite with
    | none => return (nodes, p)
    | some s =>
      let outer ← isRed nodes (← child nodes s last.opposite)
      let inner ← isRed nodes (← child nodes s last)
      if !outer && !inner then
        let nodes ← setColor nodes p .black
        let nodes ← setColor nodes s .red
        let nodes ← setColor nodes q .red
        return (nodes, p)
      else
        let g ← g
        let dir2 ← sideOf nodes g (some p)
        let (nodes, c) ← if inner then rotateDouble nodes p last else rotate nodes p last
        let nodes ← setChild nodes g dir2 (some c)
        let nodes ← setColor nodes q .red
        let top ← (← child nodes g dir2)
        let nodes ← setColor nodes top .red
        let nodes ← blackenChildren nodes top
        return (nodes, p)

/-- The search down the tree. Returns the last node, its parent and the node with the key. -/
def delLoop (items : Nat → Option (κ × ν)) (key : κ) :
    Nat → Nodes → Nat → Option Nat → Option Nat → Dir → Option (Nodes × Nat × Option Nat × Option Nat)
  | 0, _, _, _, _, _ => none
  | fuel + 1, nodes, q, p, f, dir => do
    match ← child nodes q dir with
    | none => return (nodes, q, p, f)
    | some c =>
      let comp ← compareKey items c key
      let (nodes, parent) ← pushRed nodes p q c (dirOf comp) dir
      delLoop items key fuel nodes c (some parent) (if comp = .eq then some c else f) (dirOf comp)

/-- The last node takes the place of the one that is found. -/
def unlink (nodes : Nodes) (f q p : Nat) : Option Nodes := do
  let left ← child nodes q .left
  let c ← child nodes q (if left = none then .right else .left)
  let nodes ← replace nodes f q
  setChild nodes p (← sideOf nodes p (some q)) c

/-- `del(key, foundOut)`. -/
def del (s : MojRbTree κ ν) (key : κ) : Option (MojRbTree κ ν × Bool) := do
  let s ← ensureWritable s
  if s.empty then return (s, false)
  else
    let m ← s.impl
    let nodes := Function.update s.nodes head (some {})
    let nodes ← setChild nodes head .right (some m.root)
    let (nodes, q, p, f) ← delLoop s.items key (2 * m.size + 2) nodes head none none .right
    let nodes ← match f with
      | none => some nodes
      | some f => do unlink nodes f q (← p)
    let root ← child nodes head .right
    let nodes ← match root with
      | none => some nodes
      | some root => do setColor (← setParent nodes root none) root .black
    let h : Heap κ ν := { s.toHeap with nodes := Function.update nodes head none }
    let impl := root.map fun root => { m with root := root, size := m.size - if f = none then 0 else 1 }
    return (⟨match f with | none => h | some f => h.deleteNode f, impl⟩, f ≠ none)

/-- `del(tree)`, with the keys of another tree in their order. -/
def delTree (s : MojRbTree κ ν) : List κ → Option (MojRbTree κ ν)
  | [] => some s
  | key :: keys => do delTree (← del s key).1 keys

/-! ## Validating -/

/-- `validate(node, blackHeight, size)`: what it adds to both, or `none` where an assertion fails. -/
def validateNode (nodes : Nodes) (items : Nat → Option (κ × ν)) : Nat → Option Nat → Option (Nat × Nat)
  | _, none => some (1, 0)
  | 0, some _ => none
  | fuel + 1, some a => do
    let n ← nodes a
    let item ← items a
    let left := n.children .left
    let right := n.children .right
    guard (left ≠ some a ∧ right ≠ some a)
    guard (left = none ∨ left ≠ right)
    guard (∀ b ∈ left, compareKey items b item.1 = some .lt)
    guard (∀ b ∈ right, compareKey items b item.1 = some .gt)
    guard (n.color = .red → isRed nodes left = some false ∧ isRed nodes right = some false)
    let (leftHeight, leftSize) ← validateNode nodes items fuel left
    let (rightHeight, rightSize) ← validateNode nodes items fuel right
    guard (∀ b ∈ left, (nodes b).map Node.parent = some (some a))
    guard (∀ b ∈ right, (nodes b).map Node.parent = some (some a))
    guard (0 < leftHeight ∧ 0 < rightHeight)
    guard (leftHeight = rightHeight)
    return (leftHeight + (if n.color = .red then 0 else 1), 1 + leftSize + rightSize)

/-- `validate()`. A tree that is higher than its size is wrong in any case. -/
def validate (s : MojRbTree κ ν) : Option Unit :=
  match s.impl with
  | none => some ()
  | some m => do
    let n ← s.nodes m.root
    guard (n.parent = none)
    let (blackHeight, size) ← validateNode s.nodes s.items m.size (some m.root)
    guard (0 < blackHeight)
    guard (size = m.size)

end MojRbTree

end Db8
