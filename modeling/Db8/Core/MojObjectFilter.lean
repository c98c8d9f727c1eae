import Db8.Core.MojObject

/-!
# Core.MojObjectFilter

`MojObjectFilter`: the visitor between an object and another visitor that lets the selected
properties through.

* `propName`, `begin_`, `end_`, `call` — what the filter does at each call of the visitor.
* `prune`       — what a subtree of the selection leaves of a value.
* `visit_node`  — the filter at a value is told to take by a node tells on what `prune` leaves.
* `visit_root`  — hence what it tells on of a whole object.
-/

namespace Db8

open MojObject

namespace MojObjectFilter

/-- A name of the selection; a childless node selects all below it. -/
structure Node where
  propName : MojString
  children : List Node

/-- `m_includeCount`: the values still to be let through. `MojSizeMax` stands for a whole subtree and
is more than any container has values. -/
inductive IncludeCount where
  | upTo (n : Nat)
  | sizeMax
  deriving DecidableEq

namespace IncludeCount

def isZero : IncludeCount → Bool
  | .upTo n => n = 0
  | .sizeMax => false

/-- `m_includeCount--`. -/
def dec : IncludeCount → IncludeCount
  | .upTo n => .upTo (n - 1)
  | .sizeMax => .sizeMax

end IncludeCount

structure State where
  node : Option Node
  /-- The children of `node` from `m_child` on. -/
  child : List Node
  includeCount : IncludeCount
  included : Bool
  array : Bool

namespace State

def reset (node : Node) : State := ⟨some node, [], .upTo 0, true, false⟩

/-- The loop of `propName`: the children below the name are passed; the node to enter, where the name
has one with children. -/
def match_ (s : State) (name : MojString) : State × Option Node :=
  match s.node with
  | none => (s, none)
  | some _ =>
    match s.child.dropWhile fun c => c.propName.compare name = .lt with
    | [] => ({ s with child := [], includeCount := .upTo 0 }, none)
    | c :: cs =>
      if c.propName.compare name = .eq then
        if c.children.isEmpty then ({ s with child := c :: cs, includeCount := .upTo 1 }, none)
        else ({ s with child := c :: cs, includeCount := .upTo 0 }, some c)
      else ({ s with child := c :: cs, includeCount := .upTo 0 }, none)

/-- What `include` tells of a container held back so far. -/
def include_ (s : State) (prev : Option State) : List Visit :=
  if s.included then []
  else
    (match prev, s.node with
      | some p, some n => if p.array then [] else [.propName n.propName]
      | _, _ => []) ++ [if s.array then .beginArray else .beginObject]

def setIncluded (s : State) : State := { s with included := true }

end State

end MojObjectFilter

/-- The filter, with the calls its visitor has received in `out`. -/
structure MojObjectFilter where
  state : MojObjectFilter.State
  stack : List MojObjectFilter.State
  nextNode : Option MojObjectFilter.Node
  out : List Visit

namespace MojObjectFilter

/-- `setVisitor`. -/
def setVisitor (root : Node) : MojObjectFilter := ⟨.reset root, [], some root, []⟩

def tell (f : MojObjectFilter) (vs : List Visit) : MojObjectFilter := { f with out := f.out ++ vs }

/-- The calls of `include` over the stack and the state on top of it. -/
def opens : Option State → List State → List Visit
  | _, [] => []
  | prev, s :: ss => s.include_ prev ++ opens (some s) ss

def includeParents (f : MojObjectFilter) : MojObjectFilter :=
  { f with
    state := f.state.setIncluded
    stack := f.stack.map State.setIncluded
    out := f.out ++ opens none (f.stack ++ [f.state]) }

def propName (f : MojObjectFilter) (name : MojString) : MojObjectFilter :=
  let m := f.state.match_ name
  let f := { f with state := m.1, nextNode := m.2 }
  if f.state.includeCount.isZero then f
  else if f.state.included then f.tell [.propName name]
  else f.includeParents.tell [.propName name]

/-- `nullValue` and its siblings. -/
def value (f : MojObjectFilter) (v : Visit) : MojObjectFilter :=
  if f.state.includeCount.isZero then f
  else { f with state := { f.state with includeCount := f.state.includeCount.dec } }.tell [v]

/-- `begin`; the container of the whole object is always let through. -/
def begin_ (f : MojObjectFilter) (array : Bool) (method : Visit) : MojObjectFilter :=
  let stack := f.stack ++ [f.state]
  let included := !f.state.includeCount.isZero || stack.length = 1
  { state :=
      { node := f.nextNode
        child := (f.nextNode.map Node.children).getD []
        includeCount := if f.state.includeCount.isZero then f.state.includeCount else .sizeMax
        included := included
        array := array }
    stack := stack
    nextNode := f.nextNode
    out := f.out ++ if included then [method] else [] }

/-- `end`; the node is entered again at the next element of an array. -/
def end_ (f : MojObjectFilter) (method : Visit) : MojObjectFilter :=
  match f.stack.getLast? with
  | none => f
  | some prev =>
    { state := { prev with includeCount := prev.includeCount.dec }
      stack := f.stack.dropLast
      nextNode := f.state.node
      out := f.out ++ if f.state.included then [method] else [] }

def call (f : MojObjectFilter) : Visit → MojObjectFilter
  | .beginObject => f.begin_ false .beginObject
  | .endObject => f.end_ .endObject
  | .beginArray => f.begin_ true .beginArray
  | .endArray => f.end_ .endArray
  | .propName name => f.propName name
  | v => f.value v

def visit (f : MojObjectFilter) (vs : List Visit) : MojObjectFilter := vs.foldl call f

theorem visit_append (f : MojObjectFilter) (vs ws : List Visit) : f.visit (vs ++ ws) = (f.visit vs).visit ws :=
  List.foldl_append

theorem visit_cons (f : MojObjectFilter) (v : Visit) (vs : List Visit) : f.visit (v :: vs) = (f.call v).visit vs :=
  rfl

/-! ## What a node leaves of a value -/

/-- The children left at the property `name`. -/
def seek (name : MojString) (children : List Node) : List Node :=
  children.dropWhile fun c => c.propName.compare name = .lt

mutual
/-- What is left of a value whose container the filter enters with the node; nothing of it is told on
when nothing in it is selected. -/
def prune : MojObject → Node → Option MojObject
  | .object ps, n =>
    let left := pruneProps ps n.children
    if left.isEmpty then none else some (.object left)
  | .array xs, n =>
    let left := pruneVec xs n
    if left.isEmpty then none else some (.array left)
  | _, _ => none

/-- The properties in the order they come, against the children not yet passed. -/
def pruneProps : List (MojString × MojObject) → List Node → List (MojString × MojObject)
  | [], _ => []
  | (k, v) :: ps, cs =>
    (match seek k cs with
      | [] => []
      | c :: _ =>
        if c.propName.compare k = .eq then
          if c.children.isEmpty then [(k, v)] else ((prune v c).map fun v => (k, v)).toList
        else []) ++ pruneProps ps (seek k cs)

def pruneVec : List MojObject → Node → List MojObject
  | [], _ => []
  | x :: xs, n => (prune x n).toList ++ pruneVec xs n
end

/-! ## Containers and scalars -/

theorem visit_object (f : MojObjectFilter) (ps : List (MojString × MojObject)) :
    f.visit (MojObject.object ps).visit =
      ((f.begin_ false .beginObject).visit (visitProps ps)).end_ .endObject := by
  rw [MojObject.visit, visit_cons, visit_append]
  rfl

theorem visit_array (f : MojObjectFilter) (xs : List MojObject) :
    f.visit (MojObject.array xs).visit =
      ((f.begin_ true .beginArray).visit (visitVec xs)).end_ .endArray := by
  rw [MojObject.visit, visit_cons, visit_append]
  rfl

theorem value_of_zero {f : MojObjectFilter} (h : f.state.includeCount = .upTo 0) (v : Visit) : f.value v = f := by
  simp [value, h, IncludeCount.isZero]

/-- `begin` where nothing is let through yet. -/
theorem begin_of_zero {f : MojObjectFilter} (hstack : f.stack ≠ []) (hcount : f.state.includeCount = .upTo 0)
    (array : Bool) (method : Visit) :
    f.begin_ array method =
      { state := ⟨f.nextNode, (f.nextNode.map Node.children).getD [], .upTo 0, false, array⟩
        stack := f.stack ++ [f.state]
        nextNode := f.nextNode
        out := f.out } := by
  simp [begin_, hcount, IncludeCount.isZero, hstack]

/-- `begin` of a container that is let through as a whole. -/
theorem begin_of_pos {f : MojObjectFilter} (hcount : f.state.includeCount.isZero = false)
    (hnode : f.nextNode = none) (array : Bool) (method : Visit) :
    f.begin_ array method =
      { state := ⟨none, [], .sizeMax, true, array⟩
        stack := f.stack ++ [f.state]
        nextNode := none
        out := f.out ++ [method] } := by
  simp [begin_, hcount, hnode]

/-- `end` after what leaves the stack as it was at the beginning. -/
theorem end_of_stack {f g : MojObjectFilter} (hstack : g.stack = f.stack ++ [f.state]) (method : Visit) :
    g.end_ method =
      { state := { f.state with includeCount := f.state.includeCount.dec }
        stack := f.stack
        nextNode := g.state.node
        out := g.out ++ if g.state.included then [method] else [] } := by
  simp only [end_, hstack, List.getLast?_concat, List.dropLast_concat]

/-! ## Values left out -/

/-- The filter passes over the value. -/
def Excludes (o : MojObject) : Prop :=
  ∀ f : MojObjectFilter, f.stack ≠ [] → f.state.includeCount = .upTo 0 → f.nextNode = none → f.visit o.visit = f

theorem visitProps_excluded {ps : List (MojString × MojObject)} (hps : ∀ p ∈ ps, Excludes p.2) {f : MojObjectFilter}
    (hstack : f.stack ≠ []) (hcount : f.state.includeCount = .upTo 0) (hnode : f.nextNode = none)
    (hstate : f.state.node = none) : f.visit (visitProps ps) = f := by
  induction ps with
  | nil => rfl
  | cons p ps ih =>
    obtain ⟨k, v⟩ := p
    rw [List.forall_mem_cons] at hps
    have hname : f.propName k = f := by
      cases f
      simp_all [propName, State.match_, IncludeCount.isZero]
    rw [visitProps, visit_cons, visit_append, call, hname, hps.1 f hstack hcount hnode, ih hps.2]

theorem visitVec_excluded {xs : List MojObject} (hxs : ∀ x ∈ xs, Excludes x) {f : MojObjectFilter}
    (hstack : f.stack ≠ []) (hcount : f.state.includeCount = .upTo 0) (hnode : f.nextNode = none) :
    f.visit (visitVec xs) = f := by
  induction xs with
  | nil => rfl
  | cons x xs ih =>
    rw [List.forall_mem_cons] at hxs
    rw [visitVec, visit_append, hxs.1 f hstack hcount hnode, ih hxs.2]

/-- A container whose contents are passed over. -/
theorem end_excluded {f : MojObjectFilter} (hcount : f.state.includeCount = .upTo 0) (hnode : f.nextNode = none)
    (array : Bool) (method : Visit) :
    end_ ⟨⟨none, [], .upTo 0, false, array⟩, f.stack ++ [f.state], none, f.out⟩ method = f := by
  rw [end_of_stack (f := f) rfl]
  obtain ⟨⟨node, child, count, included, arr⟩, stack, next, out⟩ := f
  obtain rfl : count = .upTo 0 := hcount
  obtain rfl : next = none := hnode
  simp [IncludeCount.dec]

theorem excludes (o : MojObject) : Excludes o := by
  induction o using inductionOn with
  | object ps ih =>
    intro f hstack hcount hnode
    rw [visit_object, begin_of_zero hstack hcount, hnode, visitProps_excluded ih (by simp) rfl rfl rfl]
    exact end_excluded hcount hnode false _
  | array xs ih =>
    intro f hstack hcount hnode
    rw [visit_array, begin_of_zero hstack hcount, hnode, visitVec_excluded ih (by simp) rfl rfl]
    exact end_excluded hcount hnode true _
  | _ =>
    intro f _ hcount _
    exact value_of_zero hcount _

/-! ## Values let through -/

/-- The filter tells on the value as it is. -/
def Includes (o : MojObject) : Prop :=
  ∀ f : MojObjectFilter, f.state.includeCount.isZero = false → f.nextNode = none →
    f.visit o.visit =
      { f with state := { f.state with includeCount := f.state.includeCount.dec } }.tell o.visit

/-- Inside such a value the count stays. -/
theorem Includes.visit {o : MojObject} (h : Includes o) {f : MojObjectFilter}
    (hcount : f.state.includeCount = .sizeMax) (hnode : f.nextNode = none) : f.visit o.visit = f.tell o.visit := by
  rw [h f (by rw [hcount]; rfl) hnode]
  obtain ⟨⟨node, child, count, included, arr⟩, stack, next, out⟩ := f
  obtain rfl : count = .sizeMax := hcount
  rfl

@[simp] theorem tell_nil (f : MojObjectFilter) : f.tell [] = f := by simp [tell]

@[simp] theorem tell_tell (f : MojObjectFilter) (vs ws : List Visit) : (f.tell vs).tell ws = f.tell (vs ++ ws) := by
  simp [tell]

theorem visitProps_included {ps : List (MojString × MojObject)} (hps : ∀ p ∈ ps, Includes p.2) {f : MojObjectFilter}
    (hcount : f.state.includeCount = .sizeMax) (hincluded : f.state.included = true) (hnode : f.nextNode = none)
    (hstate : f.state.node = none) : f.visit (visitProps ps) = f.tell (visitProps ps) := by
  induction ps generalizing f with
  | nil => exact (tell_nil f).symm
  | cons p ps ih =>
    obtain ⟨k, v⟩ := p
    rw [List.forall_mem_cons] at hps
    have hname : f.propName k = f.tell [.propName k] := by
      cases f
      simp_all [propName, State.match_, IncludeCount.isZero, tell]
    rw [visitProps, visit_cons, visit_append, call, hname, hps.1.visit (by exact hcount) (by exact hnode), tell_tell,
      ih hps.2 (by exact hcount) (by exact hincluded) (by exact hnode) (by exact hstate), tell_tell,
      List.singleton_append, List.cons_append]

theorem visitVec_included {xs : List MojObject} (hxs : ∀ x ∈ xs, Includes x) {f : MojObjectFilter}
    (hcount : f.state.includeCount = .sizeMax) (hnode : f.nextNode = none) :
    f.visit (visitVec xs) = f.tell (visitVec xs) := by
  induction xs generalizing f with
  | nil => exact (tell_nil f).symm
  | cons x xs ih =>
    rw [List.forall_mem_cons] at hxs
    rw [visitVec, visit_append, hxs.1.visit hcount hnode, ih hxs.2 (by exact hcount) (by exact hnode), tell_tell]

theorem includes_value {o : MojObject} {v : Visit} (hvisit : o.visit = [v])
    (hcall : ∀ f : MojObjectFilter, f.call v = f.value v) : Includes o := by
  intro f hcount _
  rw [hvisit, visit_cons, hcall, value, hcount]
  rfl

theorem includes (o : MojObject) : Includes o := by
  induction o using inductionOn with
  | object ps ih =>
    intro f hcount hnode
    rw [visit_object, begin_of_pos hcount hnode, visitProps_included ih rfl rfl rfl rfl, end_of_stack (f := f) rfl]
    simp [tell, hnode, MojObject.visit]
  | array xs ih =>
    intro f hcount hnode
    rw [visit_array, begin_of_pos hcount hnode, visitVec_included ih rfl rfl, end_of_stack (f := f) rfl]
    simp [tell, hnode, MojObject.visit]
  | _ => exact includes_value rfl fun _ => rfl

/-! ## Containers held back -/

/-- A container is held back only below all that are told of. -/
def InOrder (f : MojObjectFilter) : Prop := f.state.included = true → ∀ s ∈ f.stack, s.included = true

theorem setIncluded_of_included {s : State} (h : s.included = true) : s.setIncluded = s := by
  cases s
  simp_all [State.setIncluded]

theorem include_of_included {s : State} (h : s.included = true) (prev : Option State) : s.include_ prev = [] :=
  if_pos h

theorem include_of_held {s : State} {n : Node} (h : s.included = false) (hnode : s.node = some n) {prev : State} :
    s.include_ (some prev) =
      (if prev.array then [] else [.propName n.propName]) ++ [if s.array then .beginArray else .beginObject] := by
  simp [State.include_, h, hnode]

theorem opens_of_included {ss : List State} (h : ∀ s ∈ ss, s.included = true) (prev : Option State) :
    opens prev ss = [] := by
  induction ss generalizing prev with
  | nil => rfl
  | cons s ss ih =>
    rw [List.forall_mem_cons] at h
    rw [opens, include_of_included h.1, ih h.2, List.append_nil]

theorem opens_concat (prev : Option State) (ss : List State) (s t : State) :
    opens prev (ss ++ [s] ++ [t]) = opens prev (ss ++ [s]) ++ t.include_ (some s) := by
  induction ss generalizing prev with
  | nil => simp [opens]
  | cons u ss ih => simp only [List.cons_append, opens, ih, ← List.append_assoc]

/-- Once all are told of there is nothing to do. -/
theorem includeParents_of_included {f : MojObjectFilter} (hord : f.InOrder) (h : f.state.included = true) :
    f.includeParents = f := by
  have hmap : f.stack.map State.setIncluded = f.stack :=
    (List.map_congr_left fun s hs => setIncluded_of_included (hord h s hs)).trans (List.map_id _)
  have hopens : opens none (f.stack ++ [f.state]) = [] := by
    refine opens_of_included ?_ none
    intro s hs
    cases List.mem_append.mp hs with
    | inl hs => exact hord h s hs
    | inr hs => rwa [List.mem_singleton.mp hs]
  rw [includeParents, hmap, hopens, setIncluded_of_included h, List.append_nil]

theorem inOrder_includeParents (f : MojObjectFilter) : f.includeParents.InOrder := by
  intro _ s hs
  obtain ⟨s, -, rfl⟩ := List.mem_map.mp hs
  rfl

/-- The place in the selection: the children left, and the node to enter. -/
def moveTo (f : MojObjectFilter) (child : List Node) (next : Option Node) : MojObjectFilter :=
  { f with state := { f.state with child := child }, nextNode := next }

def setCount (f : MojObjectFilter) (n : Nat) : MojObjectFilter :=
  { f with state := { f.state with includeCount := .upTo n } }

theorem opens_congr {s t : State} (h : ∀ prev, s.include_ prev = t.include_ prev) (prev : Option State)
    (ss : List State) : opens prev (ss ++ [s]) = opens prev (ss ++ [t]) := by
  induction ss generalizing prev with
  | nil => simp only [List.nil_append, opens, h]
  | cons u ss ih => simp only [List.cons_append, opens, ih]

theorem includeParents_moveTo (f : MojObjectFilter) (child : List Node) (next : Option Node) :
    (f.moveTo child next).includeParents = f.includeParents.moveTo child next := by
  have hopens := opens_congr (s := (f.moveTo child next).state) (t := f.state) (fun _ => rfl) none f.stack
  rw [includeParents]
  change MojObjectFilter.mk _ _ _ (f.out ++ opens none (f.stack ++ [(f.moveTo child next).state])) = _
  rw [hopens]
  rfl

theorem includeParents_setCount (f : MojObjectFilter) (n : Nat) :
    (f.setCount n).includeParents = f.includeParents.setCount n := by
  have hopens := opens_congr (s := (f.setCount n).state) (t := f.state) (fun _ => rfl) none f.stack
  rw [includeParents]
  change MojObjectFilter.mk _ _ _ (f.out ++ opens none (f.stack ++ [(f.setCount n).state])) = _
  rw [hopens]
  rfl

/-! ## A property name -/

section PropName

variable {f : MojObjectFilter} {n : Node} (hnode : f.state.node = some n) (k : MojString)
include hnode

/-- No child has the name. -/
theorem propName_skip (h : ∀ c ∈ (seek k f.state.child).head?, c.propName.compare k ≠ .eq) :
    f.propName k = (f.moveTo (seek k f.state.child) none).setCount 0 := by
  cases hseek : seek k f.state.child with
  | nil =>
    rw [seek] at hseek
    simp [propName, State.match_, hnode, hseek, IncludeCount.isZero, moveTo, setCount]
  | cons c cs =>
    have hne : c.propName.compare k ≠ .eq := h c (by rw [hseek]; rfl)
    rw [seek] at hseek
    simp [propName, State.match_, hnode, hseek, hne, IncludeCount.isZero, moveTo, setCount]

/-- The name has a child with children of its own. -/
theorem propName_enter {c : Node} {cs : List Node} (hseek : seek k f.state.child = c :: cs)
    (heq : c.propName.compare k = .eq) (hchildren : c.children.isEmpty = false) :
    f.propName k = (f.moveTo (c :: cs) (some c)).setCount 0 := by
  rw [seek] at hseek
  simp [propName, State.match_, hnode, hseek, heq, hchildren, IncludeCount.isZero, moveTo, setCount]

/-- The name has a childless child: the containers held back are told of, then the name. -/
theorem propName_leaf (hord : f.InOrder) {c : Node} {cs : List Node} (hseek : seek k f.state.child = c :: cs)
    (heq : c.propName.compare k = .eq) (hchildren : c.children.isEmpty = true) :
    f.propName k = ((f.includeParents.moveTo (c :: cs) none).setCount 1).tell [.propName k] := by
  have hmatch : f.state.match_ k = (((f.moveTo (c :: cs) none).setCount 1).state, none) := by
    rw [seek] at hseek
    simp [State.match_, hnode, hseek, heq, hchildren, moveTo, setCount]
  have hname : f.propName k =
      if f.state.included then ((f.moveTo (c :: cs) none).setCount 1).tell [.propName k]
      else ((f.moveTo (c :: cs) none).setCount 1).includeParents.tell [.propName k] := by
    rw [propName, hmatch]
    rfl
  rw [hname, includeParents_setCount, includeParents_moveTo]
  split_ifs with hincluded
  · rw [includeParents_of_included hord hincluded]
  · rfl

end PropName

/-! ## What is told on after all -/

/-- The filter after telling on `vs`: with the first of it come the containers held back. -/
def after (f : MojObjectFilter) (vs : List Visit) : MojObjectFilter :=
  if vs.isEmpty then f else f.includeParents.tell vs

theorem after_nil (f : MojObjectFilter) : f.after [] = f := rfl

theorem after_of_ne {f : MojObjectFilter} {vs : List Visit} (h : vs ≠ []) : f.after vs = f.includeParents.tell vs :=
  if_neg (by simpa using h)

theorem after_after (f : MojObjectFilter) (vs ws : List Visit) : (f.after vs).after ws = f.after (vs ++ ws) := by
  cases vs with
  | nil => rfl
  | cons v vs =>
    cases ws with
    | nil => rw [after_nil, List.append_nil]
    | cons w ws =>
      have hidem : (f.includeParents.tell (v :: vs)).includeParents = f.includeParents.tell (v :: vs) :=
        includeParents_of_included (inOrder_includeParents f) rfl
      rw [after_of_ne (List.cons_ne_nil _ _), after_of_ne (List.cons_ne_nil _ _), hidem, tell_tell,
        after_of_ne (by simp)]

theorem after_moveTo (f : MojObjectFilter) (child : List Node) (next : Option Node) (vs : List Visit) :
    (f.moveTo child next).after vs = (f.after vs).moveTo child next := by
  rw [after, after, includeParents_moveTo]
  split_ifs <;> rfl

theorem InOrder.after {f : MojObjectFilter} (hord : f.InOrder) (vs : List Visit) : (f.after vs).InOrder := by
  rw [MojObjectFilter.after]
  split_ifs
  · exact hord
  · exact inOrder_includeParents f

theorem after_induction {P : MojObjectFilter → Prop} {f : MojObjectFilter} (hf : P f)
    (hparents : ∀ vs, P (f.includeParents.tell vs)) (vs : List Visit) : P (f.after vs) := by
  rw [after]
  split_ifs
  exacts [hf, hparents vs]

/-! ## Values entered with a node -/

/-- The calls for a property or an element of which `left` is left. -/
def told (array : Bool) (n : Node) : Option MojObject → List Visit
  | none => []
  | some left => (if array then [] else [.propName n.propName]) ++ left.visit

/-- The filter, entering the value with a node, tells on what the node leaves of it. -/
def Prunes (o : MojObject) : Prop :=
  ∀ (f : MojObjectFilter) (n : Node), f.stack ≠ [] → f.state.includeCount = .upTo 0 → f.nextNode = some n →
    f.InOrder → f.visit o.visit = f.after (told f.state.array n (prune o n))

/-- Where the filter stands in a container it has entered. -/
structure Inside (f : MojObjectFilter) (n : Node) (array : Bool) : Prop where
  stack : f.stack ≠ []
  count : f.state.includeCount = .upTo 0
  node : f.state.node = some n
  array : f.state.array = array
  order : f.InOrder

theorem Inside.after {f : MojObjectFilter} {n : Node} {array : Bool} (h : f.Inside n array) (vs : List Visit) :
    (f.after vs).Inside n array := by
  refine after_induction (P := fun f => f.Inside n array) h (fun vs => ?_) vs
  refine ⟨?_, h.count, h.node, h.array, inOrder_includeParents f⟩
  intro hnil
  exact h.stack (List.map_eq_nil_iff.mp hnil)

theorem Inside.moveTo {f : MojObjectFilter} {n : Node} {array : Bool} (h : f.Inside n array) (child : List Node)
    (next : Option Node) : (f.moveTo child next).Inside n array :=
  ⟨h.stack, h.count, h.node, h.array, h.order⟩

theorem Inside.setCount {f : MojObjectFilter} {n : Node} {array : Bool} (h : f.Inside n array) : f.setCount 0 = f := by
  obtain ⟨⟨node, child, count, included, arr⟩, stack, next, out⟩ := f
  obtain rfl : count = .upTo 0 := h.count
  rfl

/-- Let through with its name, a value leaves the count as it was. -/
theorem visit_leaf (k : MojString) (v : MojObject) {f : MojObjectFilter} (hcount : f.state.includeCount = .upTo 0)
    (child : List Node) :
    (((f.moveTo child none).setCount 1).tell [.propName k]).visit v.visit =
      (f.tell (.propName k :: v.visit)).moveTo child none := by
  rw [includes v _ rfl rfl]
  obtain ⟨⟨node, child', count, included, arr⟩, stack, next, out⟩ := f
  obtain rfl : count = .upTo 0 := hcount
  simp [tell, moveTo, setCount, IncludeCount.dec]

/-- One property. -/
theorem visitProp_pruned {k : MojString} {v : MojObject} (hv : Prunes v) {f : MojObjectFilter} {n : Node}
    (h : f.Inside n false) :
    ∃ next, (f.propName k).visit v.visit =
      (f.after (visitProps (pruneProps [(k, v)] f.state.child))).moveTo (seek k f.state.child) next := by
  rw [pruneProps, pruneProps, List.append_nil]
  have hskip : (f.moveTo (seek k f.state.child) none).visit v.visit = f.moveTo (seek k f.state.child) none :=
    excludes v _ (h.moveTo _ _).stack (h.moveTo _ _).count rfl
  cases hseek : seek k f.state.child with
  | nil =>
    rw [hseek] at hskip
    rw [propName_skip h.node k (by simp [hseek]), hseek, (h.moveTo _ _).setCount, hskip]
    exact ⟨none, rfl⟩
  | cons c cs =>
    rw [hseek] at hskip
    by_cases heq : c.propName.compare k = .eq
    · cases hchildren : c.children.isEmpty with
      | true =>
        have hcount : f.includeParents.state.includeCount = .upTo 0 := h.count
        rw [propName_leaf h.node k h.order hseek heq hchildren, visit_leaf k v hcount]
        refine ⟨none, ?_⟩
        simp only [heq, hchildren, if_true, visitProps, List.append_nil]
        rw [after_of_ne (List.cons_ne_nil _ _)]
      | false =>
        have henter := hv (f.moveTo (c :: cs) (some c)) c (h.moveTo _ _).stack (h.moveTo _ _).count rfl (h.moveTo _ _).order
        have harray : (f.moveTo (c :: cs) (some c)).state.array = false := h.array
        rw [propName_enter h.node k hseek heq hchildren, (h.moveTo _ _).setCount, henter, after_moveTo, harray]
        refine ⟨some c, ?_⟩
        obtain rfl := MojString.compare_eq_iff.mp heq
        cases hprune : prune v c with
        | none => simp [hchildren, heq, hprune, told, visitProps]
        | some left => simp [hchildren, heq, hprune, told, visitProps]
    · rw [propName_skip h.node k (by simp [hseek, heq]), hseek, (h.moveTo _ _).setCount, hskip]
      simp only [if_neg heq]
      exact ⟨none, rfl⟩

theorem visitProps_pruned {ps : List (MojString × MojObject)} (hps : ∀ p ∈ ps, Prunes p.2) {f : MojObjectFilter}
    {n : Node} (h : f.Inside n false) :
    ∃ child next, f.visit (visitProps ps) =
      (f.after (visitProps (pruneProps ps f.state.child))).moveTo child next := by
  induction ps generalizing f with
  | nil => exact ⟨f.state.child, f.nextNode, rfl⟩
  | cons p ps ih =>
    obtain ⟨k, v⟩ := p
    rw [List.forall_mem_cons] at hps
    obtain ⟨next, hhead⟩ := visitProp_pruned (k := k) hps.1 h
    obtain ⟨child, next', htail⟩ := ih hps.2 ((h.after _).moveTo (seek k f.state.child) next)
    have hprops : pruneProps ((k, v) :: ps) f.state.child =
        pruneProps [(k, v)] f.state.child ++ pruneProps ps (seek k f.state.child) := by
      rw [pruneProps, pruneProps, pruneProps, List.append_nil]
    have hvisit : ∀ ps qs, visitProps (ps ++ qs) = visitProps ps ++ visitProps qs := by
      intro ps qs
      simp only [visitProps_eq_flatMap, List.flatMap_append]
    rw [visitProps, visit_cons, visit_append, call, hhead, htail, after_moveTo, after_after, hprops, hvisit]
    exact ⟨child, next', rfl⟩

theorem visitVec_pruned {xs : List MojObject} (hxs : ∀ x ∈ xs, Prunes x) {f : MojObjectFilter} {n : Node}
    (h : f.Inside n true) (hnext : f.nextNode = some n) :
    f.visit (visitVec xs) = f.after (visitVec (pruneVec xs n)) := by
  induction xs generalizing f with
  | nil => rfl
  | cons x xs ih =>
    rw [List.forall_mem_cons] at hxs
    have hhead := hxs.1 f n h.stack h.count hnext h.order
    have hvisit : visitVec (pruneVec (x :: xs) n) = told true n (prune x n) ++ visitVec (pruneVec xs n) := by
      rw [pruneVec]
      cases prune x n with
      | none => rfl
      | some left => rfl
    have hnext' : (f.after (told true n (prune x n))).nextNode = some n :=
      after_induction (P := fun f => f.nextNode = some n) hnext (fun _ => hnext) _
    rw [visitVec, visit_append, hhead, h.array, ih hxs.2 (h.after _) hnext', after_after, hvisit]

/-- A container entered with a node, when its contents are told on as `body`. -/
theorem visit_container {f : MojObjectFilter} {n : Node} (hstack : f.stack ≠ [])
    (hcount : f.state.includeCount = .upTo 0) (hnext : f.nextNode = some n) (hord : f.InOrder)
    (array : Bool) (method method' : Visit) {vs body : List Visit}
    (hmethod : (if array then .beginArray else .beginObject) = method)
    (hbody : ∀ g : MojObjectFilter, g.Inside n array → g.state.child = n.children → g.nextNode = some n →
      ∃ child next, g.visit vs = (g.after body).moveTo child next) :
    ((f.begin_ array method).visit vs).end_ method' =
      f.after (if body.isEmpty then [] else
        (if f.state.array then [] else [.propName n.propName]) ++ method :: (body ++ [method'])) := by
  rw [begin_of_zero hstack hcount, hnext]
  obtain ⟨child, next, hvisit⟩ := hbody
    ⟨⟨some n, n.children, .upTo 0, false, array⟩, f.stack ++ [f.state], some n, f.out⟩
    ⟨by simp, rfl, rfl, rfl, fun h => absurd h (by simp)⟩ rfl rfl
  change (visit ⟨⟨some n, n.children, .upTo 0, false, array⟩, f.stack ++ [f.state], some n, f.out⟩ vs).end_ method' = _
  rw [hvisit]
  cases body with
  | nil =>
    rw [after_nil, end_of_stack (f := f) rfl]
    obtain ⟨⟨node, child', count, included, arr⟩, stack, next', out⟩ := f
    obtain rfl : count = .upTo 0 := hcount
    obtain rfl : next' = some n := hnext
    simp [after_nil, moveTo, IncludeCount.dec]
  | cons v body =>
    have hopens := opens_concat none f.stack f.state ⟨some n, n.children, .upTo 0, false, array⟩
    have hinclude : State.include_ ⟨some n, n.children, .upTo 0, false, array⟩ (some f.state) =
        (if f.state.array then [] else [.propName n.propName]) ++ [method] := by
      rw [include_of_held rfl rfl, hmethod]
    rw [after_of_ne (List.cons_ne_nil _ _), end_of_stack (f := f.includeParents) (by simp [includeParents, tell, moveTo])]
    rw [List.isEmpty_cons, after_of_ne (by simp)]
    obtain ⟨⟨node, child', count, included, arr⟩, stack, next', out⟩ := f
    obtain rfl : count = .upTo 0 := hcount
    obtain rfl : next' = some n := hnext
    simp only [includeParents, tell, moveTo, hopens, hinclude, State.setIncluded]
    simp [IncludeCount.dec]

theorem prunes (o : MojObject) : Prunes o := by
  induction o using inductionOn with
  | object ps ih =>
    intro f n hstack hcount hnext hord
    have hbody : ∀ g : MojObjectFilter, g.Inside n false → g.state.child = n.children → g.nextNode = some n →
        ∃ child next, g.visit (visitProps ps) =
          (g.after (visitProps (pruneProps ps n.children))).moveTo child next := by
      intro g hg hchild _
      rw [← hchild]
      exact visitProps_pruned ih hg
    rw [visit_object, visit_container hstack hcount hnext hord false .beginObject .endObject rfl hbody, prune]
    cases pruneProps ps n.children with
    | nil => rfl
    | cons p left => simp [told, visitProps, MojObject.visit]
  | array xs ih =>
    intro f n hstack hcount hnext hord
    have hbody : ∀ g : MojObjectFilter, g.Inside n true → g.state.child = n.children → g.nextNode = some n →
        ∃ child next, g.visit (visitVec xs) = (g.after (visitVec (pruneVec xs n))).moveTo child next := by
      intro g hg _ hnext
      rw [visitVec_pruned ih hg hnext]
      exact ⟨_, _, rfl⟩
    rw [visit_array, visit_container hstack hcount hnext hord true .beginArray .endArray rfl hbody, prune]
    cases pruneVec xs n with
    | nil => rfl
    | cons x left =>
      have hne : (visitVec (x :: left)).isEmpty = false := by
        rw [visitVec]
        cases x <;> rfl
      simp [told, hne, MojObject.visit]
  | _ =>
    intro f n _ hcount _ _
    exact value_of_zero hcount _

/-- Of an object the filter tells on the properties that the selection leaves. -/
theorem visit_root (root : Node) (ps : List (MojString × MojObject)) :
    ((setVisitor root).visit (MojObject.object ps).visit).out =
      (MojObject.object (pruneProps ps root.children)).visit := by
  have hbegin : (setVisitor root).begin_ false .beginObject =
      ⟨⟨some root, root.children, .upTo 0, true, false⟩, [.reset root], some root, [.beginObject]⟩ := rfl
  have hinside : Inside ⟨⟨some root, root.children, .upTo 0, true, false⟩, [.reset root], some root, [.beginObject]⟩
      root false :=
    ⟨by simp, rfl, rfl, rfl, fun _ s hs => by rw [List.mem_singleton.mp hs]; rfl⟩
  obtain ⟨child, next, hvisit⟩ := visitProps_pruned (fun p _ => prunes p.2) hinside
  have hparents := includeParents_of_included hinside.order rfl
  rw [visit_object, hbegin, hvisit]
  generalize pruneProps ps root.children = left at *
  cases left with
  | nil => rfl
  | cons p left =>
    rw [after_of_ne (by simp [visitProps]), hparents]
    rfl

end MojObjectFilter

end Db8
