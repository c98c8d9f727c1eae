import Db8.Core.MojErr
import Db8.Lib.Cells

/-!
# Core.MojVector

The vector: a ref-counted array that vectors share until one of them is written to.

* `Block`, `Heap`      — an array, and the memory with all arrays.
* `MojVector`          — the three pointers into an array.
* `realloc`, `ensureWritable`, `ensureSpace`, `shift` — where the elements get their room.
* `push`, `append`, `insert`, `erase`, `reverse`, `assign`, … — the functions of the source.
* `Ref`, `Range`       — what a `const T&` or a pair of iterators leads to, also into an array.
* `Op`, `step`         — operations on any number of vectors.

A function returns `none` where the source reads, assigns or destroys what is not constructed, constructs an
element where there is one or where no room is, or touches an array that is freed. `MojAssert` is left out; the
calls it forbids, but for an `erase` out of range, lead there. Allocation succeeds.
-/

namespace Db8

open Lib

namespace MojVector

/-- An array with room for `cap` elements, of which the first are constructed. -/
structure Block (α : Type) where
  cap : Nat
  elems : List α
  refCount : Nat

/-- The arrays by their addresses; no address from `next` on is in use. -/
structure Heap (α : Type) where
  blocks : Nat → Option (Block α)
  next : Nat

end MojVector

/-- `m_begin`, `m_end - m_begin` and `m_endAlloc - m_begin`. -/
structure MojVector where
  begin : Option Nat
  size : Nat
  capacity : Nat
  deriving DecidableEq

namespace MojVector

variable {α : Type}

def InitialSize : Nat := 8

def null : MojVector := ⟨none, 0, 0⟩

namespace Heap

def read (h : Heap α) (i k : Nat) : Option α := (h.blocks i).bind fun b => b.elems[k]?

def set (h : Heap α) (i : Nat) (b : Option (Block α)) : Heap α := { h with blocks := Function.update h.blocks i b }

def alloc (h : Heap α) (b : Block α) : Heap α := ⟨Function.update h.blocks h.next (some b), h.next + 1⟩

end Heap

/-- `v[k]`. -/
def get (h : Heap α) (v : MojVector) (k : Nat) : Option α := v.begin.bind fun i => h.read i k

def refCount (h : Heap α) (v : MojVector) : Nat := ((v.begin.bind h.blocks).map Block.refCount).getD 0

def retain (h : Heap α) (v : MojVector) : Option (Heap α) :=
  match v.begin with
  | none => some h
  | some i => do
    let b ← h.blocks i
    some (h.set i (some { b with refCount := b.refCount + 1 }))

def release (h : Heap α) (v : MojVector) : Option (Heap α) :=
  match v.begin with
  | none => some h
  | some i => do
    let b ← h.blocks i
    if b.refCount = 1 then
      if v.size = b.elems.length then some (h.set i none) else none
    else
      some (h.set i (some { b with refCount := b.refCount - 1 }))

/-- The elements are copied to another array, and the old one is released by the temporary vector. -/
def realloc (h : Heap α) (v : MojVector) (numElems : Nat) : Option (Heap α × MojVector) := do
  let elems ← constructLoop numElems (fun _ k => get h v k) v.size 0 []
  let h' ← release (h.alloc ⟨numElems, elems, 1⟩) v
  some (h', ⟨some h.next, v.size, numElems⟩)

def ensureWritable (h : Heap α) (v : MojVector) : Option (Heap α × MojVector) :=
  if 1 < refCount h v then realloc h v v.capacity else some (h, v)

def ensureSpace (h : Heap α) (v : MojVector) (numElems : Nat) : Option (Heap α × MojVector) := do
  let (h, v) ←
    if v.capacity < numElems then realloc h v (max numElems (max InitialSize (v.capacity * 2))) else some (h, v)
  ensureWritable h v

/-- A loop over the array of a vector; without an array it has no element to touch. -/
def onArray (h : Heap α) (v : MojVector) (loop : Nat → List α → Option (List α)) : Option (Heap α) :=
  match v.begin with
  | none => do
    let _ ← loop 0 []
    some h
  | some i => do
    let b ← h.blocks i
    let elems ← loop b.cap b.elems
    some (h.set i (some { b with elems := elems }))

/-- The element that a reference leads to: a value outside of all arrays, or an element of one. -/
inductive Ref (α : Type) where
  | value (a : α)
  | elem (i k : Nat)

/-- The elements between two iterators. -/
inductive Range (α : Type) where
  | values (vals : List α)
  | elems (i first last : Nat)

/-- What is read while a loop over the array of `v` has left `l` in it. -/
def Ref.read (h : Heap α) (v : MojVector) (l : List α) : Ref α → Option α
  | .value a => some a
  | .elem i k => if v.begin = some i then l[k]? else h.read i k

def Range.size : Range α → Nat
  | .values vals => vals.length
  | .elems _ first last => last - first

def Range.ref : Range α → Nat → Option (Ref α)
  | .values vals, j => vals[j]?.map .value
  | .elems i first _, j => some (.elem i (first + j))

def Range.read (h : Heap α) (v : MojVector) (l : List α) (range : Range α) (j : Nat) : Option α :=
  (range.ref j).bind fun ref => ref.read h v l

/-- The element `numElems` places before `k`. -/
def before (numElems : Nat) (l : List α) (k : Nat) : Option α :=
  if numElems ≤ k then l[k - numElems]? else none

/-- `MojDestroy` of the last `numElems` elements before `size`. -/
def destroyEnd (size numElems : Nat) (l : List α) : Option (List α) :=
  if numElems ≤ size ∧ size = l.length then some (l.take (size - numElems)) else none

def push (h : Heap α) (v : MojVector) (val : Ref α) : Option (Heap α × MojVector) := do
  let (h, v) ← ensureSpace h v (v.size + 1)
  let h ← onArray h v fun cap l => do
    let a ← val.read h v l
    construct cap v.size a l
  some (h, { v with size := v.size + 1 })

def append (h : Heap α) (v : MojVector) (range : Range α) : Option (Heap α × MojVector) := do
  let (h, v) ← ensureSpace h v (v.size + range.size)
  let h ← onArray h v fun cap l =>
    constructLoop cap (fun l k => range.read h v l (k - v.size)) range.size v.size l
  some (h, { v with size := v.size + range.size })

/-- The three loops of `shift`. -/
def shiftLoops [Inhabited α] (size idx numElems cap : Nat) (l : List α) : Option (List α) := do
  let numMove := size - idx
  let numCopyConstruct := min numElems numMove
  let numDefaultConstruct := numElems - numCopyConstruct
  let numAssign := numMove - numCopyConstruct
  let l ← constructLoop cap (fun _ _ => some default) numDefaultConstruct size l
  let l ← constructLoop cap (before numElems) numCopyConstruct (size + numDefaultConstruct) l
  storeDown (before numElems) numAssign (size - 1) l

def shift [Inhabited α] (h : Heap α) (v : MojVector) (idx numElems : Nat) : Option (Heap α × MojVector) :=
  if v.size < idx then none
  else do
    let (h, v) ← ensureSpace h v (v.size + numElems)
    let h ← onArray h v (shiftLoops v.size idx numElems)
    some (h, { v with size := v.size + numElems })

def insert [Inhabited α] (h : Heap α) (v : MojVector) (idx numElems : Nat) (val : Ref α) :
    Option (Heap α × MojVector) := do
  let (h, v) ← shift h v idx numElems
  let h ← onArray h v fun _ l => storeUp (fun l _ => val.read h v l) numElems idx l
  some (h, v)

def insertRange [Inhabited α] (h : Heap α) (v : MojVector) (idx : Nat) (range : Range α) :
    Option (Heap α × MojVector) := do
  let (h, v) ← shift h v idx range.size
  let h ← onArray h v fun _ l => storeUp (fun l k => range.read h v l (k - idx)) range.size idx l
  some (h, v)

/-- The moves of `erase`, and the elements that are then at the end. -/
def eraseLoops (size idx numElems numMove : Nat) (l : List α) : Option (List α) := do
  let l ← storeUp (fun l k => l[k + numElems]?) numMove idx l
  destroyEnd size numElems l

/-- The sum of the two sizes is one of `MojSize`. -/
def erase (h : Heap α) (v : MojVector) (idx numElems : Nat) : Option (Heap α × MojVector × Option MojErr) :=
  let last := (idx + numElems) % 2 ^ 64
  if v.size < last then some (h, v, some .valueOutOfRange)
  else do
    let (h, v) ← ensureWritable h v
    let numMove := v.size - last
    let h ← onArray h v fun _ l => eraseLoops v.size idx numElems numMove l
    some (h, { v with size := v.size - numElems }, none)

def pop (h : Heap α) (v : MojVector) : Option (Heap α × MojVector × Option MojErr) :=
  erase h v ((v.size + (2 ^ 64 - 1)) % 2 ^ 64) 1

def resize [Inhabited α] (h : Heap α) (v : MojVector) (numElems : Nat) (val : Ref α) :
    Option (Heap α × MojVector × Option MojErr) :=
  if v.size < numElems then do
    let (h, v) ← insert h v v.size (numElems - v.size) val
    some (h, v, none)
  else if numElems < v.size then erase h v numElems (v.size - numElems)
  else some (h, v, none)

/-- `MojSwap` of two elements. -/
def swapElems (i₁ i₂ : Nat) (l : List α) : Option (List α) := do
  let tmp ← l[i₁]?
  let a ← l[i₂]?
  let l ← store i₁ a l
  store i₂ tmp l

/-- The loop of `reverse`, for at most `fuel` rounds. -/
def reverseLoop : Nat → Nat → Nat → List α → Option (List α)
  | 0, i₁, i₂, l => if i₁ < i₂ then none else some l
  | fuel + 1, i₁, i₂, l =>
    if i₁ < i₂ then do
      let l ← swapElems i₁ i₂ l
      reverseLoop fuel (i₁ + 1) (i₂ - 1) l
    else
      some l

def reverse (h : Heap α) (v : MojVector) : Option (Heap α × MojVector) :=
  if 1 < v.size then do
    let (h, v) ← ensureWritable h v
    let h ← onArray h v fun _ l => reverseLoop v.size 0 (v.size - 1) l
    some (h, v)
  else
    some (h, v)

def clear (h : Heap α) (v : MojVector) : Option (Heap α × MojVector) :=
  if v.size = 0 then some (h, v)
  else if refCount h v = 1 then do
    let h ← onArray h v fun _ l => destroyEnd v.size v.size l
    some (h, { v with size := 0 })
  else do
    let h ← release h v
    some (h, null)

def assignRange (h : Heap α) (v : MojVector) (range : Range α) : Option (Heap α × MojVector) := do
  let (h, v) ← clear h v
  append h v range

/-- `reset` and the reference for the array that is now shared. -/
def assign (h : Heap α) (v rhs : MojVector) : Option (Heap α × MojVector) := do
  let h ← release h v
  let h ← retain h rhs
  some (h, rhs)

/-! ## Any number of vectors -/

variable {ι : Type}

/-- The argument of a call: a value of the caller, or `d[k]`. -/
inductive Arg (ι α : Type) where
  | value (a : α)
  | elem (d : ι) (k : Nat)

/-- Two iterators: of the caller, or `d.begin() + first` and `d.begin() + last`. -/
inductive RangeArg (ι α : Type) where
  | values (vals : List α)
  | elems (d : ι) (first last : Nat)

inductive Op (ι α : Type) where
  | push (c : ι) (val : Arg ι α)
  | append (c : ι) (range : RangeArg ι α)
  | insert (c : ι) (idx numElems : Nat) (val : Arg ι α)
  | insertRange (c : ι) (idx : Nat) (range : RangeArg ι α)
  | erase (c : ι) (idx numElems : Nat)
  | pop (c : ι)
  | resize (c : ι) (numElems : Nat) (val : Arg ι α)
  | reverse (c : ι)
  | clear (c : ι)
  | assignRange (c : ι) (range : RangeArg ι α)
  | assign (c rhs : ι)

structure State (ι α : Type) where
  heap : Heap α
  vecs : ι → MojVector

def start (ι α : Type) : State ι α := ⟨⟨fun _ => none, 0⟩, fun _ => null⟩

def Arg.ref (s : State ι α) : Arg ι α → Option (Ref α)
  | .value a => some (.value a)
  | .elem d k => if k < (s.vecs d).size then (s.vecs d).begin.map fun i => .elem i k else none

def RangeArg.range (s : State ι α) : RangeArg ι α → Option (Range α)
  | .values vals => some (.values vals)
  | .elems d first last =>
    if first ≤ last ∧ last ≤ (s.vecs d).size then
      match (s.vecs d).begin with
      | none => some (.values [])
      | some i => some (.elems i first last)
    else none

variable [DecidableEq ι]

/-- The state after a call on the vector `c`; no error is `MojErrNone`. -/
def returned (s : State ι α) (c : ι) : Heap α × MojVector → State ι α × Option MojErr
  | (h, v) => (⟨h, Function.update s.vecs c v⟩, none)

def returnedErr (s : State ι α) (c : ι) : Heap α × MojVector × Option MojErr → State ι α × Option MojErr
  | (h, v, err) => (⟨h, Function.update s.vecs c v⟩, err)

def step [Inhabited α] (s : State ι α) : Op ι α → Option (State ι α × Option MojErr)
  | .push c val => do
    let val ← val.ref s
    (push s.heap (s.vecs c) val).map (returned s c)
  | .append c range => do
    let range ← range.range s
    (append s.heap (s.vecs c) range).map (returned s c)
  | .insert c idx numElems val => do
    let val ← val.ref s
    (insert s.heap (s.vecs c) idx numElems val).map (returned s c)
  | .insertRange c idx range => do
    let range ← range.range s
    (insertRange s.heap (s.vecs c) idx range).map (returned s c)
  | .erase c idx numElems => (erase s.heap (s.vecs c) idx numElems).map (returnedErr s c)
  | .pop c => (pop s.heap (s.vecs c)).map (returnedErr s c)
  | .resize c numElems val => do
    let val ← val.ref s
    (resize s.heap (s.vecs c) numElems val).map (returnedErr s c)
  | .reverse c => (reverse s.heap (s.vecs c)).map (returned s c)
  | .clear c => (clear s.heap (s.vecs c)).map (returned s c)
  | .assignRange c range => do
    let range ← range.range s
    (assignRange s.heap (s.vecs c) range).map (returned s c)
  | .assign c rhs => (assign s.heap (s.vecs c) (s.vecs rhs)).map (returned s c)

end MojVector

end Db8
