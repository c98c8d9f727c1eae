import Db8.Core.MojErr
import Db8.Db.MojDbExtractor

/-!
# Db.MojDbRevisionSet

The revision sets of a kind: properties that are watched, and one that holds the revision of their
last change.

* `update`, `preUpdate`  — what the sets of a kind and of its supers write into a new object.
* `valuesAt`             — the values at a property path; `handleVal_eq` for the key parts taken of them.
* `Apart`                — no set writes what another one writes or watches.
* `preUpdate_spec`       — each set then writes the new revision or nothing.
-/

namespace Db8

open Lib MojObject MojDb

structure MojDbRevisionSet where
  name : MojString
  props : List MojDbPropExtractor

namespace MojDbRevisionSet

def updateRev (set : MojDbRevisionSet) (obj : MojObject) : Except MojErr MojObject :=
  match obj.get RevKey with
  | none => .error .requiredPropNotFound
  | some rev => .ok (obj.put set.name rev)

/-- The values the two objects have for one of the properties are not the same. -/
def differ (text : MojDbText) (set : MojDbRevisionSet) (newObj oldObj : MojObject) : Bool :=
  set.props.any fun e => e.vals text newObj ≠ e.vals text oldObj

def diff (text : MojDbText) (set : MojDbRevisionSet) (newObj oldObj : MojObject) : Except MojErr MojObject :=
  if set.differ text newObj oldObj then set.updateRev newObj else .ok newObj

def update (text : MojDbText) (set : MojDbRevisionSet) (newObj : MojObject) (oldObj : Option MojObject) :
    Except MojErr MojObject :=
  match oldObj with
  | none => set.updateRev newObj
  | some oldObj => set.diff text newObj oldObj

end MojDbRevisionSet

/-- What an update of an object looks at in its kind. -/
structure RevKind where
  supers : List RevKind
  revSets : List MojDbRevisionSet
  assignId : Bool
  backup : Bool

namespace RevKind

def updateAll (text : MojDbText) (oldObj : Option MojObject) :
    List MojDbRevisionSet → MojObject → Except MojErr MojObject
  | [], newObj => .ok newObj
  | set :: sets, newObj => do
    let newObj ← set.update text newObj oldObj
    updateAll text oldObj sets newObj

mutual
/-- `MojDbKind::preUpdate`: the supers first, then the sets of the kind itself. -/
def preUpdate (text : MojDbText) (oldObj : Option MojObject) : RevKind → MojObject → Except MojErr MojObject
  | ⟨supers, revSets, _, _⟩, newObj => do
    let newObj ← preUpdateSupers text oldObj supers newObj
    updateAll text oldObj revSets newObj

def preUpdateSupers (text : MojDbText) (oldObj : Option MojObject) :
    List RevKind → MojObject → Except MojErr MojObject
  | [], newObj => .ok newObj
  | kind :: kinds, newObj => do
    let newObj ← preUpdate text oldObj kind newObj
    preUpdateSupers text oldObj kinds newObj
end

mutual
/-- The sets of a kind in the order they are updated. -/
def allRevSets : RevKind → List MojDbRevisionSet
  | ⟨supers, revSets, _, _⟩ => superRevSets supers ++ revSets

def superRevSets : List RevKind → List MojDbRevisionSet
  | [] => []
  | kind :: kinds => allRevSets kind ++ superRevSets kinds
end

theorem updateAll_append (text : MojDbText) (oldObj : Option MojObject) (sets sets' : List MojDbRevisionSet)
    (newObj : MojObject) : updateAll text oldObj (sets ++ sets') newObj =
      (updateAll text oldObj sets newObj).bind (updateAll text oldObj sets') := by
  induction sets generalizing newObj with
  | nil => rfl
  | cons set sets ih =>
    rw [List.cons_append, updateAll, updateAll]
    cases set.update text newObj oldObj with
    | error err => rfl
    | ok newObj => exact ih newObj

mutual
theorem preUpdate_eq (text : MojDbText) (oldObj : Option MojObject) :
    ∀ (kind : RevKind) (newObj : MojObject),
      preUpdate text oldObj kind newObj = updateAll text oldObj kind.allRevSets newObj
  | ⟨supers, revSets, _, _⟩, newObj => by
    rw [preUpdate, allRevSets, updateAll_append, preUpdateSupers_eq text oldObj supers newObj]
    rfl

theorem preUpdateSupers_eq (text : MojDbText) (oldObj : Option MojObject) :
    ∀ (kinds : List RevKind) (newObj : MojObject),
      preUpdateSupers text oldObj kinds newObj = updateAll text oldObj (superRevSets kinds) newObj
  | [], _ => rfl
  | kind :: kinds, newObj => by
    rw [preUpdateSupers, superRevSets, updateAll_append, preUpdate_eq text oldObj kind newObj]
    cases updateAll text oldObj kind.allRevSets newObj with
    | error err => rfl
    | ok newObj => exact preUpdateSupers_eq text oldObj kinds newObj
end

end RevKind

/-! ## The values at a path -/

namespace MojDbPropExtractor

/-- The values a property path leads to: of the last property the value as a whole, before it arrays
element by element; `none` where a named property is missing. -/
def valuesAt : List MojString → MojObject → List (Option MojObject)
  | [], val => [some val]
  | propKey :: rest, obj =>
    if propKey = WildcardKey then obj.props.flatMap fun p => valuesAt rest p.2
    else
      match obj.get propKey with
      | none => [none]
      | some (.array vec) => if rest.isEmpty then [some (.array vec)] else vec.flatMap (valuesAt rest)
      | some val => valuesAt rest val

/-- The parts taken of such a value; only under a name the elements of an array. -/
def partsOf (text : MojDbText) (e : MojDbPropExtractor) (path : List MojString) : Option MojObject → List MojDbKey
  | none => e.default.elems
  | some (.array vec) =>
    if path.getLast? = some WildcardKey ∨ path = [] then lastVals text e (.array vec)
    else vec.flatMap (lastVals text e)
  | some val => lastVals text e val

theorem partsOf_cons (text : MojDbText) (e : MojDbPropExtractor) {propKey : MojString} {rest : List MojString}
    (h : propKey = WildcardKey ∨ rest ≠ []) : partsOf text e (propKey :: rest) = partsOf text e rest := by
  have hlast : ((propKey :: rest).getLast? = some WildcardKey ∨ propKey :: rest = []) ↔
      (rest.getLast? = some WildcardKey ∨ rest = []) := by
    cases rest with
    | nil =>
      have hwild := h.resolve_right (fun hne => hne rfl)
      simp [hwild]
    | cons k rest => simp
  funext val
  cases val with
  | none => rfl
  | some val =>
    cases val with
    | array vec => simp only [partsOf, hlast]
    | _ => rfl

/-- The parts depend on the values alone. -/
theorem handleVal_eq (text : MojDbText) (e : MojDbPropExtractor) (path : List MojString) (obj : MojObject) :
    handleVal text e path obj = (valuesAt path obj).flatMap (partsOf text e path) := by
  induction path generalizing obj with
  | nil => cases obj <;> simp [handleVal, valuesAt, partsOf]
  | cons propKey rest ih =>
    rw [handleVal, valuesAt]
    by_cases hwild : propKey = WildcardKey
    · rw [if_pos hwild, if_pos hwild, List.flatMap_assoc, partsOf_cons text e (.inl hwild)]
      simp only [ih]
    · rw [if_neg hwild, if_neg hwild]
      cases hget : obj.get propKey with
      | none => simp [partsOf]
      | some val =>
        cases rest with
        | nil =>
          cases val with
          | array vec => simp [partsOf, hwild, handleVal]
          | _ => simp [partsOf, handleVal, valuesAt]
        | cons k rest =>
          rw [partsOf_cons text e (.inr (List.cons_ne_nil _ _))]
          cases val with
          | array vec =>
            have hparts : handleVal text e (k :: rest) = fun obj => _ := funext ih
            simp only [List.isEmpty_cons, Bool.false_eq_true, if_false, List.flatMap_assoc, hparts]
          | _ => exact ih _

theorem vals_congr {text : MojDbText} {e : MojDbPropExtractor} {obj obj' : MojObject}
    (h : valuesAt e.prop obj = valuesAt e.prop obj') : e.vals text obj = e.vals text obj' := by
  rw [vals, vals, handleVal_eq, handleVal_eq, h]

/-- A property at which the path does not begin plays no part. -/
theorem valuesAt_put {path : List MojString} {key : MojString} (hpath : path ≠ []) (hkey : path.head? ≠ some key)
    (hwild : path.head? ≠ some WildcardKey) (obj val : MojObject) : valuesAt path (obj.put key val) = valuesAt path obj := by
  obtain ⟨propKey, rest, rfl⟩ := List.exists_cons_of_ne_nil hpath
  rw [List.head?_cons] at hkey hwild
  have hne : propKey ≠ key := fun he => hkey (congrArg some he)
  have hwild' : propKey ≠ WildcardKey := fun he => hwild (congrArg some he)
  rw [valuesAt, valuesAt, if_neg hwild', if_neg hwild', get_put_of_ne hne]

end MojDbPropExtractor

namespace MojDbRevisionSet

/-- The two objects have the same values for each of the properties. -/
def SameValues (set : MojDbRevisionSet) (obj obj' : MojObject) : Prop :=
  ∀ e ∈ set.props, MojDbPropExtractor.valuesAt e.prop obj = MojDbPropExtractor.valuesAt e.prop obj'

instance (set : MojDbRevisionSet) (obj obj' : MojObject) : Decidable (set.SameValues obj obj') :=
  inferInstanceAs (Decidable (∀ e ∈ set.props, _))

theorem differ_eq_false {text : MojDbText} {set : MojDbRevisionSet} {obj obj' : MojObject}
    (h : set.SameValues obj obj') : set.differ text obj obj' = false := by
  rw [differ, List.any_eq_false]
  intro e he
  simpa using @MojDbPropExtractor.vals_congr text e obj obj' (h e he)

/-- No property path of the set begins with the key or with a wildcard. -/
def Ignores (set : MojDbRevisionSet) (key : MojString) : Prop :=
  ∀ e ∈ set.props, e.prop.head? ≠ some key ∧ e.prop.head? ≠ some MojDbPropExtractor.WildcardKey

instance (set : MojDbRevisionSet) (key : MojString) : Decidable (set.Ignores key) :=
  inferInstanceAs (Decidable (∀ e ∈ set.props, _))

theorem Ignores.valuesAt_put {set : MojDbRevisionSet} {key : MojString} (h : set.Ignores key) {e : MojDbPropExtractor}
    (he : e ∈ set.props) (obj val : MojObject) :
    MojDbPropExtractor.valuesAt e.prop (obj.put key val) = MojDbPropExtractor.valuesAt e.prop obj :=
  MojDbPropExtractor.valuesAt_put e.prop_ne_nil (h e he).1 (h e he).2 obj val

theorem Ignores.differ_put {set : MojDbRevisionSet} {key : MojString} (h : set.Ignores key) (text : MojDbText)
    (obj val obj' : MojObject) : set.differ text (obj.put key val) obj' = set.differ text obj obj' := by
  rw [Bool.eq_iff_iff, differ, differ, List.any_eq_true, List.any_eq_true]
  refine exists_congr fun e => and_congr_right fun he => ?_
  rw [MojDbPropExtractor.vals_congr (h.valuesAt_put he obj val)]

theorem Ignores.sameValues_put {set : MojDbRevisionSet} {key : MojString} (h : set.Ignores key)
    (obj val obj' : MojObject) : set.SameValues (obj.put key val) obj' ↔ set.SameValues obj obj' :=
  forall₂_congr fun _ he => by rw [h.valuesAt_put he obj val]

end MojDbRevisionSet

/-! ## Sets that do not touch each other -/

/-- Sets of one name are one set, none writes a property of the header that `update` is given, and none
watches what one of them writes. -/
structure Apart (sets : List MojDbRevisionSet) : Prop where
  names : ∀ set ∈ sets, ∀ set' ∈ sets, set.name = set'.name → set.props = set'.props
  header : ∀ set ∈ sets, set.name ≠ IdKey ∧ set.name ≠ KindKey ∧ set.name ≠ RevKey
  ignores : ∀ set ∈ sets, ∀ set' ∈ sets, set.Ignores set'.name
  ignoresId : ∀ set ∈ sets, set.Ignores IdKey

theorem Apart.tail {set : MojDbRevisionSet} {sets : List MojDbRevisionSet} (h : Apart (set :: sets)) : Apart sets :=
  ⟨fun s hs s' hs' => h.names s (.tail _ hs) s' (.tail _ hs'), fun s hs => h.header s (.tail _ hs),
    fun s hs s' hs' => h.ignores s (.tail _ hs) s' (.tail _ hs'), fun s hs => h.ignoresId s (.tail _ hs)⟩

namespace RevKind

/-- The revision is due: there is no old object, or its values are others. -/
def due (text : MojDbText) (set : MojDbRevisionSet) (obj : MojObject) (oldObj : Option MojObject) : Bool :=
  match oldObj with
  | none => true
  | some oldObj => set.differ text obj oldObj

theorem update_eq {text : MojDbText} {set : MojDbRevisionSet} {obj rev : MojObject} {oldObj : Option MojObject}
    (hrev : obj.get RevKey = some rev) :
    set.update text obj oldObj = .ok (if due text set obj oldObj then obj.put set.name rev else obj) := by
  have hupdate : set.updateRev obj = .ok (obj.put set.name rev) := by rw [MojDbRevisionSet.updateRev, hrev]
  cases oldObj with
  | none => rw [MojDbRevisionSet.update, due, hupdate, if_pos rfl]
  | some oldObj =>
    rw [MojDbRevisionSet.update, MojDbRevisionSet.diff, due, hupdate]
    split_ifs <;> rfl

/-- The object after the sets have been updated. -/
structure Updated (text : MojDbText) (sets : List MojDbRevisionSet) (obj : MojObject) (oldObj : Option MojObject)
    (rev obj' : MojObject) : Prop where
  written : ∀ set ∈ sets, obj'.get set.name = if due text set obj oldObj then some rev else obj.get set.name
  others : ∀ key, (∀ set ∈ sets, set.name ≠ key) → obj'.get key = obj.get key

theorem due_put {text : MojDbText} {set : MojDbRevisionSet} {key : MojString} (h : set.Ignores key)
    (obj val : MojObject) (oldObj : Option MojObject) : due text set (obj.put key val) oldObj = due text set obj oldObj := by
  cases oldObj with
  | none => rfl
  | some oldObj => exact h.differ_put text obj val oldObj

theorem due_congr (text : MojDbText) {set set' : MojDbRevisionSet} (h : set.props = set'.props) (obj : MojObject)
    (oldObj : Option MojObject) : due text set obj oldObj = due text set' obj oldObj := by
  cases oldObj with
  | none => rfl
  | some oldObj => rw [due, due, MojDbRevisionSet.differ, MojDbRevisionSet.differ, h]

/-- The sets one after the other: what each writes does not move the others. -/
theorem updateAll_spec {text : MojDbText} {oldObj : Option MojObject} {rev : MojObject} {sets : List MojDbRevisionSet}
    (h : Apart sets) {obj : MojObject} (hrev : obj.get RevKey = some rev) :
    ∃ obj', updateAll text oldObj sets obj = .ok obj' ∧ Updated text sets obj oldObj rev obj' := by
  induction sets generalizing obj with
  | nil => exact ⟨obj, rfl, ⟨fun _ hs => absurd hs List.not_mem_nil, fun _ _ => rfl⟩⟩
  | cons set sets ih =>
    -- what the first set leaves to the others
    let obj₁ := if due text set obj oldObj then obj.put set.name rev else obj
    have hget : ∀ key, key ≠ set.name → obj₁.get key = obj.get key := by
      intro key hkey
      change (if due text set obj oldObj then obj.put set.name rev else obj).get key = _
      split_ifs
      · exact get_put_of_ne hkey obj rev
      · rfl
    have hself : obj₁.get set.name = if due text set obj oldObj then some rev else obj.get set.name := by
      change (if due text set obj oldObj then obj.put set.name rev else obj).get set.name = _
      split_ifs
      · exact get_put_self obj set.name rev
      · rfl
    have hdue : ∀ s ∈ set :: sets, due text s obj₁ oldObj = due text s obj oldObj := by
      intro s hs
      change due text s (if due text set obj oldObj then obj.put set.name rev else obj) oldObj = _
      split_ifs
      · exact due_put (h.ignores s hs set List.mem_cons_self) obj rev oldObj
      · rfl
    have hrev₁ : obj₁.get RevKey = some rev := by
      rw [hget _ (h.header set List.mem_cons_self).2.2.symm, hrev]
    obtain ⟨obj', hok, hupdated⟩ := ih h.tail hrev₁
    refine ⟨obj', ?_, ⟨?_, ?_⟩⟩
    · rw [updateAll, update_eq hrev]
      exact hok
    · have hrest : ∀ s ∈ sets, obj'.get s.name = if due text s obj oldObj then some rev else obj.get s.name := by
        intro s hs
        rw [hupdated.written s hs, hdue s (.tail _ hs)]
        by_cases hname : s.name = set.name
        · have hsame := due_congr text (h.names s (.tail _ hs) set List.mem_cons_self hname) obj oldObj
          rw [hname, hself, ← hsame]
          split_ifs <;> rfl
        · rw [hget _ hname]
      intro s hs
      cases List.mem_cons.mp hs with
      | inr hs => exact hrest s hs
      | inl hs =>
        subst hs
        by_cases hagain : ∃ s' ∈ sets, s'.name = s.name
        · obtain ⟨s', hs', hname⟩ := hagain
          have hsame := due_congr text (h.names s' (.tail _ hs') s List.mem_cons_self hname) obj oldObj
          rw [← hname, hrest s' hs', hsame]
        · rw [hupdated.others s.name fun s' hs' he => hagain ⟨s', hs', he⟩, hself]
    · intro key hkey
      rw [List.forall_mem_cons] at hkey
      rw [hupdated.others key hkey.2, hget key (Ne.symm hkey.1)]

theorem preUpdate_spec {text : MojDbText} {oldObj : Option MojObject} {rev : MojObject} {kind : RevKind}
    (h : Apart kind.allRevSets) {obj : MojObject} (hrev : obj.get RevKey = some rev) :
    ∃ obj', preUpdate text oldObj kind obj = .ok obj' ∧ Updated text kind.allRevSets obj oldObj rev obj' := by
  rw [preUpdate_eq]
  exact updateAll_spec h hrev

end RevKind

end Db8
