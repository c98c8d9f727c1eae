import Db8.Lib.Chain

/-!
# Core.MojHashBase

The hash table that copies share until one of them is written to: nodes and tables in a memory, and containers that point to
a table. An operation that follows a pointer to nothing gives `none`.

* `Node`, `Impl`, `Heap` — the memory; an address is not given out twice.
* `Impl.put`, `removeLoop`, `realloc`, `clone`, `release` — what is done with a table.
* `iterate`, `bucket`    — a way through a container, or through one chain.
* `put`, `del`, `find`, `findWritable` — the operations of a container.
* `step`, `run`          — the operations on several containers.
-/

namespace Db8

open Lib

namespace MojHashBase

variable {ι κ α : Type}

/-- `m_iterRef`: the place of the pointer to a node in the list of all nodes. -/
inductive IterRef where
  | null
  | begin (impl : Nat)
  | iterNext (node : Nat)
  deriving DecidableEq

structure Node (κ α : Type) where
  key : κ
  val : α
  bucketNext : Option Nat
  iterNext : Option Nat
  iterRef : IterRef

/-- `m_numBuckets` is the length of `buckets`. -/
structure Impl where
  buckets : List (Option Nat)
  begin : Option Nat
  size : Nat
  refcount : Nat

structure Heap (κ α : Type) where
  nodes : Nat → Option (Node κ α)
  impls : Nat → Option Impl
  newNode : Nat
  newImpl : Nat

def FillFactor : Nat := 2
def InitialSize : Nat := 8

namespace Heap

def empty : Heap κ α := ⟨fun _ => none, fun _ => none, 0, 0⟩

def setNode (h : Heap κ α) (a : Nat) (n : Node κ α) : Heap κ α := { h with nodes := Function.update h.nodes a (some n) }

def setImpl (h : Heap κ α) (i : Nat) (m : Impl) : Heap κ α := { h with impls := Function.update h.impls i (some m) }

def deleteNode (h : Heap κ α) (a : Nat) : Heap κ α := { h with nodes := Function.update h.nodes a none }

def deleteImpl (h : Heap κ α) (i : Nat) : Heap κ α := { h with impls := Function.update h.impls i none }

/-- `new` of a node of which only the key and the value are set. -/
def allocNode (h : Heap κ α) (key : κ) (val : α) : Heap κ α :=
  { h.setNode h.newNode ⟨key, val, none, none, .null⟩ with newNode := h.newNode + 1 }

/-- `new Impl`, with its buckets. -/
def allocImpl (h : Heap κ α) (numBuckets : Nat) : Heap κ α :=
  { h.setImpl h.newImpl ⟨List.replicate numBuckets none, none, 0, 1⟩ with newImpl := h.newImpl + 1 }

end Heap

section Operations

variable (hash : κ → Nat)

def bucketForKey (key : κ) (numBuckets : Nat) : Nat := hash key % numBuckets

/-! ## Buckets -/

/-- `Bucket::insert` -/
def insert (h : Heap κ α) (i idx a : Nat) : Option (Heap κ α) := do
  let m ← h.impls i
  let head ← m.buckets[idx]?
  let n ← h.nodes a
  return (h.setNode a { n with bucketNext := head }).setImpl i { m with buckets := m.buckets.set idx (some a) }

/-- `*nodePtr`, the `m_node` of the bucket or the `m_bucketNext` of a node. -/
def readPtr (h : Heap κ α) (i idx : Nat) : Option Nat → Option (Option Nat)
  | none => do
    let m ← h.impls i
    m.buckets[idx]?
  | some b => do
    let n ← h.nodes b
    return n.bucketNext

def writePtr (h : Heap κ α) (i idx : Nat) (p : Option Nat) : Option Nat → Option (Heap κ α)
  | none => do
    let m ← h.impls i
    return h.setImpl i { m with buckets := m.buckets.set idx p }
  | some b => do
    let n ← h.nodes b
    return h.setNode b { n with bucketNext := p }

/-- `Bucket::remove` -/
def removeLoop (h : Heap κ α) (i idx a : Nat) : Nat → Option Nat → Option (Heap κ α)
  | 0, _ => none
  | fuel + 1, nodePtr => do
    match ← readPtr h i idx nodePtr with
    | none => return h
    | some b =>
      if b = a then do
        let n ← h.nodes a
        let h ← writePtr h i idx n.bucketNext nodePtr
        let n ← h.nodes a
        return h.setNode a { n with bucketNext := none }
      else removeLoop h i idx a fuel (some b)

/-! ## Tables -/

/-- `if (node) node->m_iterRef = ref` -/
def setIterRef (h : Heap κ α) (ref : IterRef) : Option Nat → Option (Heap κ α)
  | none => some h
  | some b => do
    let n ← h.nodes b
    return h.setNode b { n with iterRef := ref }

/-- `Impl::put` -/
def Impl.put (h : Heap κ α) (i a idx : Nat) : Option (Heap κ α) := do
  let h ← insert h i idx a
  let m ← h.impls i
  let h ← setIterRef h (.iterNext a) m.begin
  let n ← h.nodes a
  let h := h.setNode a { n with iterNext := m.begin, iterRef := .begin i }
  return h.setImpl i { m with begin := some a, size := m.size + 1 }

def deleteNodeList (h : Heap κ α) : Nat → Option Nat → Option (Heap κ α)
  | _, none => some h
  | 0, some _ => none
  | fuel + 1, some a => do
    let n ← h.nodes a
    deleteNodeList (h.deleteNode a) fuel n.iterNext

def release (h : Heap κ α) : Option Nat → Option (Heap κ α)
  | none => some h
  | some i => do
    let m ← h.impls i
    if m.refcount - 1 = 0 then do
      let h ← deleteNodeList h h.newNode m.begin
      return h.deleteImpl i
    else return h.setImpl i { m with refcount := m.refcount - 1 }

def init (h : Heap κ α) : Option Nat → Option (Heap κ α)
  | none => some h
  | some i => do
    let m ← h.impls i
    return h.setImpl i { m with refcount := m.refcount + 1 }

def cloneLoop (h : Heap κ α) (j : Nat) : Nat → Option Nat → Option (Heap κ α)
  | _, none => some h
  | 0, some _ => none
  | fuel + 1, some a => do
    let n ← h.nodes a
    let m ← h.impls j
    let h ← Impl.put (h.allocNode n.key n.val) j h.newNode (bucketForKey hash n.key m.buckets.length)
    cloneLoop h j fuel n.iterNext

/-- The copy of a table, in place of which it is put. -/
def clone (h : Heap κ α) (i : Nat) : Option (Heap κ α × Nat) := do
  let m ← h.impls i
  let j := h.newImpl
  let h ← cloneLoop hash (h.allocImpl m.buckets.length) j h.newNode m.begin
  let h ← release h (some i)
  return (h, j)

def ensureWritable (h : Heap κ α) : Option Nat → Option (Heap κ α × Option Nat)
  | none => some (h, none)
  | some i => do
    let m ← h.impls i
    if 1 < m.refcount then do
      let (h, j) ← clone hash h i
      return (h, some j)
    else return (h, some i)

def reallocLoop (h : Heap κ α) (i : Nat) : Nat → Option Nat → Option (Heap κ α)
  | _, none => some h
  | 0, some _ => none
  | fuel + 1, some a => do
    let n ← h.nodes a
    let m ← h.impls i
    let h ← insert (h.setNode a { n with bucketNext := none }) i (bucketForKey hash n.key m.buckets.length) a
    reallocLoop h i fuel n.iterNext

def realloc (h : Heap κ α) (impl : Option Nat) (numBuckets : Nat) : Option (Heap κ α × Nat) := do
  let (h, i) := match impl with
    | none => (h.allocImpl 0, h.newImpl)
    | some i => (h, i)
  let m ← h.impls i
  let h := h.setImpl i { m with buckets := List.replicate numBuckets none }
  let h ← reallocLoop hash h i h.newNode m.begin
  return (h, i)

/-! ## Containers -/

def size (h : Heap κ α) : Option Nat → Option Nat
  | none => some 0
  | some i => do
    let m ← h.impls i
    return m.size

def begin (h : Heap κ α) : Option Nat → Option (Option Nat)
  | none => some none
  | some i => do
    let m ← h.impls i
    return m.begin

/-- `put` of a new node. -/
def putNode (h : Heap κ α) (impl : Option Nat) (a idx : Nat) (key : κ) : Option (Heap κ α × Option Nat) := do
  let size ← size h impl
  let numBuckets ← if size = 0 then some 0 else do
    let i ← impl
    let m ← h.impls i
    some m.buckets.length
  if numBuckets * FillFactor ≤ size then do
    let (h, i) ← realloc hash h impl (max InitialSize (numBuckets * 2))
    let m ← h.impls i
    let h ← Impl.put h i a (bucketForKey hash key m.buckets.length)
    return (h, some i)
  else do
    let i ← impl
    let h ← Impl.put h i a idx
    return (h, some i)

/-- `*(node->m_iterRef) = p` -/
def writeIterRef (h : Heap κ α) (p : Option Nat) : IterRef → Option (Heap κ α)
  | .null => none
  | .begin i => do
    let m ← h.impls i
    return h.setImpl i { m with begin := p }
  | .iterNext b => do
    let n ← h.nodes b
    return h.setNode b { n with iterNext := p }

/-- What `del` does with the node that it found. -/
def delNode (h : Heap κ α) (i a idx : Nat) : Option (Heap κ α) := do
  let h ← removeLoop h i idx a (h.newNode + 1) none
  let n ← h.nodes a
  let h ← writeIterRef h n.iterNext n.iterRef
  let h ← setIterRef h n.iterRef n.iterNext
  let h := h.deleteNode a
  let m ← h.impls i
  return h.setImpl i { m with size := m.size - 1 }

/-! What is seen on the way through a container. -/

def iterNextOf (h : Heap κ α) (a : Nat) : Option (Option Nat) := (h.nodes a).map (·.iterNext)
def bucketNextOf (h : Heap κ α) (a : Nat) : Option (Option Nat) := (h.nodes a).map (·.bucketNext)
def entryOf (h : Heap κ α) (a : Nat) : Option (κ × α) := (h.nodes a).map fun n => (n.key, n.val)

/-- `for (node = pos; node; node = node->m_iterNext)` -/
def iterateFrom (h : Heap κ α) (pos : Option Nat) : Option (List (κ × α)) := do
  let l ← nodesFrom (iterNextOf h) h.newNode pos
  l.mapM (entryOf h)

def iterate (h : Heap κ α) (impl : Option Nat) : Option (List (κ × α)) := do
  let pos ← begin h impl
  iterateFrom h pos

/-- The places that an iterator of the container can be at. -/
def positions (h : Heap κ α) (impl : Option Nat) : Option (List Nat) := do
  let pos ← begin h impl
  nodesFrom (iterNextOf h) h.newNode pos

def numBuckets (h : Heap κ α) : Option Nat → Option Nat
  | none => none
  | some i => (h.impls i).map fun m => m.buckets.length

/-- `for (node = bucket.m_node; node; node = node->m_bucketNext)` -/
def bucket (h : Heap κ α) (impl : Option Nat) (idx : Nat) : Option (List (κ × α)) := do
  let i ← impl
  let m ← h.impls i
  let head ← m.buckets[idx]?
  let l ← nodesFrom (bucketNextOf h) h.newNode head
  l.mapM (entryOf h)

variable [DecidableEq κ]

def findLoop (h : Heap κ α) (key : κ) : Nat → Option Nat → Option (Option Nat)
  | _, none => some none
  | 0, some _ => none
  | fuel + 1, some a => do
    let n ← h.nodes a
    if n.key = key then return some a else findLoop h key fuel n.bucketNext

/-- `find` of a constant container: the node, and the bucket it is looked for in. -/
def find (h : Heap κ α) (impl : Option Nat) (key : κ) : Option (Option Nat × Nat) :=
  match impl with
  | none => some (none, 0)
  | some i => do
    let m ← h.impls i
    if m.size = 0 then return (none, 0)
    else do
      let idx := bucketForKey hash key m.buckets.length
      let head ← m.buckets[idx]?
      let node ← findLoop h key h.newNode head
      return (node, idx)

/-- The other `find`. -/
def findWritable (h : Heap κ α) (impl : Option Nat) (key : κ) : Option (Heap κ α × Option Nat × Option Nat × Nat) := do
  let (h, impl) ← ensureWritable hash h impl
  let (node, idx) ← find hash h impl key
  return (h, impl, node, idx)

/-- `MojHashMap::put` -/
def put (h : Heap κ α) (impl : Option Nat) (key : κ) (val : α) : Option (Heap κ α × Option Nat) := do
  let (h, impl, node, idx) ← findWritable hash h impl key
  match node with
  | some a => do
    let n ← h.nodes a
    return (h.setNode a { n with val := val }, impl)
  | none => putNode hash (h.allocNode key val) impl h.newNode idx key

def del (h : Heap κ α) (impl : Option Nat) (key : κ) : Option (Heap κ α × Option Nat × Bool) := do
  let (h, impl, node, idx) ← findWritable hash h impl key
  match node with
  | none => return (h, impl, false)
  | some a => do
    let i ← impl
    let h ← delNode h i a idx
    return (h, impl, true)

/-! ## Several containers -/

variable (ι κ α) in
/-- The memory, and the `m_impl` of each container. -/
structure Containers where
  heap : Heap κ α
  impls : ι → Option Nat

variable (ι κ α) in
inductive Op where
  | put (c : ι) (key : κ) (val : α)
  | del (c : ι) (key : κ)
  | find (c : ι) (key : κ)
  | findWritable (c : ι) (key : κ)
  | clear (c : ι)
  | assign (c d : ι)

inductive Result (α : Type) where
  | done
  | deleted (found : Bool)
  | found (val : Option α)

/-- The value of a node that was found. -/
def foundVal (h : Heap κ α) : Option Nat → Option (Result α)
  | none => some (.found none)
  | some a => do
    let n ← h.nodes a
    return .found (some n.val)

variable [DecidableEq ι]

def step (s : Containers ι κ α) : Op ι κ α → Option (Containers ι κ α × Result α)
  | .put c key val => do
    let (h, impl) ← put hash s.heap (s.impls c) key val
    return (⟨h, Function.update s.impls c impl⟩, .done)
  | .del c key => do
    let (h, impl, found) ← del hash s.heap (s.impls c) key
    return (⟨h, Function.update s.impls c impl⟩, .deleted found)
  | .find c key => do
    let (node, _) ← find hash s.heap (s.impls c) key
    let result ← foundVal s.heap node
    return (s, result)
  | .findWritable c key => do
    let (h, impl, node, _) ← findWritable hash s.heap (s.impls c) key
    let result ← foundVal h node
    return (⟨h, Function.update s.impls c impl⟩, result)
  | .clear c => do
    let h ← release s.heap (s.impls c)
    return (⟨h, Function.update s.impls c none⟩, .done)
  | .assign c d =>
    if c = d then return (s, .done)
    else do
      let h ← release s.heap (s.impls c)
      let h ← init h (s.impls d)
      return (⟨h, Function.update s.impls c (s.impls d)⟩, .done)

/-- Some operations one after the other, with their results. -/
def run (s : Containers ι κ α) : List (Op ι κ α) → Option (Containers ι κ α × List (Result α))
  | [] => some (s, [])
  | op :: ops => do
    let (s, result) ← step hash s op
    let (s, results) ← run s ops
    return (s, result :: results)

end Operations

end MojHashBase

end Db8
