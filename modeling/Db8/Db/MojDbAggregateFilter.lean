import Db8.Core.MojDouble
import Db8.Core.MojString
import Db8.Db.MojDbExtractor
import Db8.Lib.Fallible

/-!
# Db.MojDbAggregateFilter

The aggregates of an aggregate cursor: one `AggregateInfo` for each group and property, fed object by object.

* `updateInfo`       — what an object adds to the aggregate of its group.
* `run_spec`         — the aggregates of a run, each from the objects of its group alone.
* `Tracks`           — what an aggregate is after a sequence of objects.
* `Claimed`          — counts, sums and bounds of the objects fed, and an error exactly for a value that is no number.
* `aggregates_spec`  — when they are.
-/

namespace Db8

open Lib MojDouble

namespace AggregateOp

def OpCount : UInt8 := 1

def OpMin : UInt8 := 2

def OpMax : UInt8 := 4

def OpSum : UInt8 := 8

def OpAvg : UInt8 := 16

def OpFirst : UInt8 := 32

def OpLast : UInt8 := 64

def has (op flag : UInt8) : Bool := op &&& flag ≠ 0

end AggregateOp

open AggregateOp

/-- `MojDbQuery::AggregatePropInfo`; `addAggregate` sets the extractor for the operations that compare. -/
structure AggregatePropInfo where
  op : UInt8
  extractor : Option MojDbPropExtractor
  extractor_isSome : (has op OpMin || has op OpMax || has op OpFirst || has op OpLast) = true → extractor.isSome = true

structure AggregateInfo where
  op : UInt8
  count : Nat
  min : MojObject
  max : MojObject
  sum : MojDecimal
  avg : ℚ
  first : MojObject
  last : MojObject

abbrev AggregateInfoMap := MojString → Option AggregateInfo

abbrev GroupAggregateMap := MojObject → Option AggregateInfoMap

/-- `MojDbAggregateFilter` with the texts of its extractors' locale; only one property groups. -/
structure MojDbAggregateFilter where
  text : MojDbText
  aggregateProps : List (MojString × AggregatePropInfo)
  groupByProp : Option MojString
  props_nodup : (aggregateProps.map Prod.fst).Nodup

namespace MojDbAggregateFilter

/-! ## The source -/

/-- A new aggregate, and the error the callers drop. A sum that is not begun is zero. -/
def initAggregateInfo (obj val : MojObject) (op : UInt8) : AggregateInfo × Except MojErr Unit :=
  if has op OpSum || has op OpAvg then
    match val with
    | .int i => (⟨op, 1, val, val, .ofMagnitude i, nearest i.toInt, obj, obj⟩, .ok ())
    | .decimal d => (⟨op, 1, val, val, d, d.floatValue, obj, obj⟩, .ok ())
    | _ => (⟨op, 1, val, val, ⟨0⟩, 0, obj, obj⟩, .error .dbInvalidAggregateType)
  else (⟨op, 1, val, val, ⟨0⟩, 0, obj, obj⟩, .ok ())

def getValueAt : List MojString → MojObject → Option MojObject
  | [], _ => none
  | [part], obj => obj.get part
  | part :: parts, obj =>
    match obj.get part with
    | none => none
    | some valOut => getValueAt parts valOut

def getValue (key : MojString) (obj : MojObject) : Option MojObject :=
  getValueAt (key.split MojDbPropExtractor.PropComponentSeparator) obj

/-- The sort key `compareKey` compares. -/
def sortKey (text : MojDbText) (propInfo : AggregatePropInfo) (obj : MojObject) : List MojDbKey :=
  match propInfo.extractor with
  | none => []
  | some extractor => (extractor.vals text obj).elems

def isNumber : MojObject → Bool
  | .int _ => true
  | .decimal _ => true
  | _ => false

/-- What a number adds to the sum. -/
def addValue (sum : MojDecimal) : MojObject → MojDecimal
  | .int i => if sum.fraction = 0 then .ofMagnitude (sum.magnitude + i) else sum.addDouble (.ofMagnitude i)
  | .decimal d => sum.addDouble d
  | _ => sum

def updateCount (op : UInt8) (info : AggregateInfo) : AggregateInfo :=
  if has op OpCount || has op OpAvg then { info with count := info.count + 1 } else info

def updateMin (text : MojDbText) (propInfo : AggregatePropInfo) (obj val : MojObject) (info : AggregateInfo) : AggregateInfo :=
  if (has propInfo.op OpMin || has propInfo.op OpFirst) && decide (sortKey text propInfo obj < sortKey text propInfo info.first) then
    { info with min := val, first := obj }
  else info

def updateMax (text : MojDbText) (propInfo : AggregatePropInfo) (obj val : MojObject) (info : AggregateInfo) : AggregateInfo :=
  if (has propInfo.op OpMax || has propInfo.op OpLast) && decide (sortKey text propInfo info.last < sortKey text propInfo obj) then
    { info with max := val, last := obj }
  else info

def updateSum (op : UInt8) (val : MojObject) (info : AggregateInfo) : Except MojErr AggregateInfo :=
  if has op OpSum || has op OpAvg then
    if isNumber val then
      .ok { info with
        sum := addValue info.sum val, avg := nearest ((addValue info.sum val).floatValue / nearest info.count) }
    else .error .dbInvalidAggregateType
  else .ok info

/-- An object with the property, when its group has the property already. -/
def updateInfo (text : MojDbText) (propInfo : AggregatePropInfo) (obj val : MojObject) (info : AggregateInfo) :
    Except MojErr AggregateInfo :=
  updateSum propInfo.op val (updateMax text propInfo obj val (updateMin text propInfo obj val (updateCount propInfo.op info)))

/-- One property of `aggregateImpl`: the first object of its group begins the aggregate, whatever its value. -/
def aggregateProp (text : MojDbText) (obj : MojObject) (aggregateInfoMap : AggregateInfoMap)
    (prop : MojString × AggregatePropInfo) : Except MojErr AggregateInfoMap :=
  match getValue prop.1 obj with
  | none => .ok aggregateInfoMap
  | some val =>
    match aggregateInfoMap prop.1 with
    | none => .ok (Function.update aggregateInfoMap prop.1 (some (initAggregateInfo obj val prop.2.op).1))
    | some info => (updateInfo text prop.2 obj val info).map fun info => Function.update aggregateInfoMap prop.1 (some info)

/-- `aggregateImpl`: a new group begins with an empty map. -/
def aggregateImpl (filter : MojDbAggregateFilter) (groups : GroupAggregateMap) (call : MojObject × MojObject) :
    Except MojErr GroupAggregateMap :=
  (filter.aggregateProps.foldlM (aggregateProp filter.text call.1) ((groups call.2).getD fun _ => none)).map fun map =>
    Function.update groups call.2 (some map)

/-- The groups an object counts for: the elements of an array, else the value, or no value. -/
def groupsOf (filter : MojDbAggregateFilter) (obj : MojObject) : List MojObject :=
  match filter.groupByProp.bind fun groupStr => getValue groupStr obj with
  | none => [.undefined]
  | some (.array vec) => vec
  | some groupBy => [groupBy]

def aggregate (filter : MojDbAggregateFilter) (groups : GroupAggregateMap) (obj : MojObject) :
    Except MojErr GroupAggregateMap :=
  ((filter.groupsOf obj).map fun groupBy => (obj, groupBy)).foldlM filter.aggregateImpl groups

/-- The objects fed one after the other. -/
def run (filter : MojDbAggregateFilter) (objs : List MojObject) : Except MojErr GroupAggregateMap :=
  objs.foldlM filter.aggregate fun _ => none

/-- The aggregate of a group and property. -/
def cell (groups : GroupAggregateMap) (group : MojObject) (propName : MojString) : Option AggregateInfo :=
  ((groups group).getD fun _ => none) propName

/-! ## Each aggregate by itself -/

/-- What an object does to one aggregate. -/
def feed (text : MojDbText) (prop : MojString × AggregatePropInfo) (info : Option AggregateInfo) (obj : MojObject) :
    Except MojErr (Option AggregateInfo) :=
  match getValue prop.1 obj with
  | none => .ok info
  | some val =>
    match info with
    | none => .ok (some (initAggregateInfo obj val prop.2.op).1)
    | some info => (updateInfo text prop.2 obj val info).map some

theorem aggregateProp_eq (text : MojDbText) (obj : MojObject) (map : AggregateInfoMap) (prop : MojString × AggregatePropInfo) :
    aggregateProp text obj map prop = (feed text prop (map prop.1) obj).map (Function.update map prop.1) := by
  unfold aggregateProp feed
  cases getValue prop.1 obj with
  | none => exact congrArg Except.ok (Function.update_eq_self prop.1 map).symm
  | some val =>
    cases map prop.1 with
    | none => rfl
    | some info =>
      change (updateInfo text prop.2 obj val info).map _ = ((updateInfo text prop.2 obj val info).map some).map _
      cases updateInfo text prop.2 obj val info <;> rfl

theorem updateInfo_error {text : MojDbText} {propInfo : AggregatePropInfo} {obj val : MojObject} {info : AggregateInfo}
    {err : MojErr} (h : updateInfo text propInfo obj val info = .error err) : err = .dbInvalidAggregateType := by
  unfold updateInfo updateSum at h
  split_ifs at h
  exact (Except.error.inj h).symm

theorem feed_error {text : MojDbText} {prop : MojString × AggregatePropInfo} {info : Option AggregateInfo} {obj : MojObject}
    {err : MojErr} (h : feed text prop info obj = .error err) : err = .dbInvalidAggregateType := by
  unfold feed at h
  cases hval : getValue prop.1 obj with
  | none =>
    rw [hval] at h
    cases h
  | some val =>
    rw [hval] at h
    cases info with
    | none => cases h
    | some info =>
      cases hupdate : updateInfo text prop.2 obj val info with
      | ok info' =>
        change (updateInfo text prop.2 obj val info).map some = _ at h
        rw [hupdate] at h
        cases h
      | error err' =>
        change (updateInfo text prop.2 obj val info).map some = _ at h
        rw [hupdate] at h
        cases h
        exact updateInfo_error hupdate

/-- The properties do not get into each other's way: the names are different. -/
theorem foldlM_aggregateProp {text : MojDbText} {obj : MojObject} {props : List (MojString × AggregatePropInfo)}
    (hnodup : (props.map Prod.fst).Nodup) (map : AggregateInfoMap) :
    (∃ map', props.foldlM (aggregateProp text obj) map = .ok map' ∧
      (∀ prop ∈ props, feed text prop (map prop.1) obj = .ok (map' prop.1)) ∧
      ∀ name, name ∉ props.map Prod.fst → map' name = map name) ∨
    (props.foldlM (aggregateProp text obj) map = .error .dbInvalidAggregateType ∧
      ∃ prop ∈ props, feed text prop (map prop.1) obj = .error .dbInvalidAggregateType) := by
  induction props generalizing map with
  | nil => exact .inl ⟨map, rfl, List.forall_mem_nil _, fun _ _ => rfl⟩
  | cons prop props ih =>
    obtain ⟨hname, hnodup⟩ := List.nodup_cons.mp hnodup
    rw [List.foldlM_cons, aggregateProp_eq]
    cases hfeed : feed text prop (map prop.1) obj with
    | error err =>
      obtain rfl := feed_error hfeed
      exact .inr ⟨rfl, prop, List.mem_cons_self, hfeed⟩
    | ok info =>
      have hother : ∀ p ∈ props, Function.update map prop.1 info p.1 = map p.1 := fun p hp =>
        Function.update_of_ne (fun he => hname (List.mem_map.mpr ⟨p, hp, he⟩)) _ _
      obtain ⟨map', hrun, hall, hrest⟩ | ⟨hrun, p, hp, herr⟩ := ih hnodup (Function.update map prop.1 info)
      · refine .inl ⟨map', hrun, fun p hp => ?_, fun name hnot => ?_⟩
        · cases List.mem_cons.mp hp with
          | inl he =>
            subst he
            rw [hfeed, hrest _ hname, Function.update_self]
          | inr hp => rw [← hother p hp, hall p hp]
        · rw [List.map_cons, List.mem_cons, not_or] at hnot
          rw [hrest name hnot.2, Function.update_of_ne hnot.1]
      · exact .inr ⟨hrun, p, .tail _ hp, by rw [← hother p hp, herr]⟩

/-- The objects one aggregate is fed. -/
def feedAll (text : MojDbText) (prop : MojString × AggregatePropInfo) (info : Option AggregateInfo) (objs : List MojObject) :
    Except MojErr (Option AggregateInfo) := objs.foldlM (feed text prop) info

/-- The objects of the calls on a group. -/
def callsIn (group : MojObject) (calls : List (MojObject × MojObject)) : List MojObject :=
  (calls.filter fun call => call.2 = group).map Prod.fst

theorem callsIn_cons (group : MojObject) (call : MojObject × MojObject) (calls : List (MojObject × MojObject)) :
    callsIn group (call :: calls) = if call.2 = group then call.1 :: callsIn group calls else callsIn group calls := by
  unfold callsIn
  by_cases h : call.2 = group <;> simp [h]

/-- Induction on the calls: each aggregate is what the objects of its group make of it. -/
theorem calls_spec (filter : MojDbAggregateFilter) (calls : List (MojObject × MojObject)) (groups : GroupAggregateMap) :
    (∃ groups', calls.foldlM filter.aggregateImpl groups = .ok groups' ∧
      (∀ group, (groups' group).isSome = true ↔ (groups group).isSome = true ∨ ∃ call ∈ calls, call.2 = group) ∧
      ∀ group, ∀ prop ∈ filter.aggregateProps,
        feedAll filter.text prop (cell groups group prop.1) (callsIn group calls) = .ok (cell groups' group prop.1)) ∨
    (calls.foldlM filter.aggregateImpl groups = .error .dbInvalidAggregateType ∧
      ∃ group, ∃ prop ∈ filter.aggregateProps,
        feedAll filter.text prop (cell groups group prop.1) (callsIn group calls) = .error .dbInvalidAggregateType) := by
  induction calls generalizing groups with
  | nil => exact .inl ⟨groups, rfl, by simp, fun _ _ _ => rfl⟩
  | cons call calls ih =>
    rw [List.foldlM_cons]
    obtain ⟨map', hmap, hfeed, -⟩ | ⟨hmap, prop, hprop, herr⟩ :=
      @foldlM_aggregateProp filter.text call.1 _ filter.props_nodup ((groups call.2).getD fun _ => none)
    · have himpl : filter.aggregateImpl groups call = .ok (Function.update groups call.2 (some map')) := by
        rw [aggregateImpl, hmap]
        rfl
      rw [himpl, ok_bind]
      have hcell : ∀ group, ∀ prop ∈ filter.aggregateProps, ∀ objs,
          feedAll filter.text prop (cell groups group prop.1) (if call.2 = group then call.1 :: objs else objs) =
            feedAll filter.text prop (cell (Function.update groups call.2 (some map')) group prop.1) objs := by
        intro group prop hprop objs
        by_cases hgroup : call.2 = group
        · subst hgroup
          rw [if_pos rfl, feedAll, List.foldlM_cons]
          have hone : feed filter.text prop (cell groups call.2 prop.1) call.1 = .ok (map' prop.1) := hfeed prop hprop
          rw [hone, ok_bind, cell, Function.update_self]
          rfl
        · rw [if_neg hgroup, cell, cell, Function.update_of_ne (Ne.symm hgroup)]
      obtain ⟨groups', hrun, hsome, hall⟩ | ⟨hrun, group, prop, hprop, herr⟩ := ih (Function.update groups call.2 (some map'))
      · refine .inl ⟨groups', hrun, fun group => ?_, fun group prop hprop => ?_⟩
        · rw [hsome, List.exists_mem_cons_iff]
          by_cases hgroup : call.2 = group
          · subst hgroup
            simp
          · rw [Function.update_of_ne (Ne.symm hgroup)]
            simp [hgroup]
        · rw [callsIn_cons, hcell group prop hprop, hall group prop hprop]
      · exact .inr ⟨hrun, group, prop, hprop, by rw [callsIn_cons, hcell group prop hprop, herr]⟩
    · refine .inr ⟨?_, call.2, prop, hprop, ?_⟩
      · rw [aggregateImpl, hmap]
        rfl
      · rw [callsIn_cons, if_pos rfl, feedAll, List.foldlM_cons]
        change (feed filter.text prop (((groups call.2).getD fun _ => none) prop.1) call.1 >>= _) = _
        rw [herr]
        rfl

def callsOf (filter : MojDbAggregateFilter) (objs : List MojObject) : List (MojObject × MojObject) :=
  objs.flatMap fun obj => (filter.groupsOf obj).map fun groupBy => (obj, groupBy)

theorem run_eq (filter : MojDbAggregateFilter) (objs : List MojObject) :
    filter.run objs = (filter.callsOf objs).foldlM filter.aggregateImpl fun _ => none := by
  unfold run
  generalize (fun _ => none : GroupAggregateMap) = groups
  induction objs generalizing groups with
  | nil => rfl
  | cons obj objs ih =>
    rw [List.foldlM_cons, callsOf, List.flatMap_cons, List.foldlM_append]
    exact bind_congr fun groups' => ih groups'

/-- The objects of a group, as often as the group stands in their group property. -/
def objectsIn (filter : MojDbAggregateFilter) (group : MojObject) (objs : List MojObject) : List MojObject :=
  callsIn group (filter.callsOf objs)

theorem objectsIn_append (filter : MojDbAggregateFilter) (group : MojObject) (objs objs' : List MojObject) :
    filter.objectsIn group (objs ++ objs') = filter.objectsIn group objs ++ filter.objectsIn group objs' := by
  simp [objectsIn, callsIn, callsOf]

theorem objectsIn_singleton (filter : MojDbAggregateFilter) (group obj : MojObject) :
    filter.objectsIn group [obj] = List.replicate ((filter.groupsOf obj).count group) obj := by
  rw [objectsIn, callsOf, List.flatMap_cons, List.flatMap_nil, List.append_nil]
  induction filter.groupsOf obj with
  | nil => rfl
  | cons groupBy groups ih =>
    rw [List.map_cons, callsIn_cons, ih, List.count_cons]
    by_cases h : groupBy = group <;> simp [h, List.replicate_succ]

theorem run_spec (filter : MojDbAggregateFilter) (objs : List MojObject) :
    (∃ groups, filter.run objs = .ok groups ∧
      (∀ group, (groups group).isSome = true ↔ ∃ obj ∈ objs, group ∈ filter.groupsOf obj) ∧
      ∀ group, ∀ prop ∈ filter.aggregateProps,
        feedAll filter.text prop none (filter.objectsIn group objs) = .ok (cell groups group prop.1)) ∨
    (filter.run objs = .error .dbInvalidAggregateType ∧
      ∃ group, ∃ prop ∈ filter.aggregateProps,
        feedAll filter.text prop none (filter.objectsIn group objs) = .error .dbInvalidAggregateType) := by
  rw [run_eq]
  obtain ⟨groups, hrun, hsome, hall⟩ | h := filter.calls_spec (filter.callsOf objs) fun _ => none
  · refine .inl ⟨groups, hrun, fun group => ?_, hall⟩
    rw [hsome]
    simp [callsOf]
  · exact .inr h

/-! ## What an aggregate is after a sequence of objects -/

/-- The objects that have the property, each with its value. -/
def withValue (propName : MojString) (objs : List MojObject) : List (MojObject × MojObject) :=
  objs.filterMap fun obj => (getValue propName obj).map fun val => (obj, val)

/-- What a sum begins with. -/
def initSum : MojObject → MojDecimal
  | .int i => .ofMagnitude i
  | .decimal d => d
  | _ => ⟨0⟩

def sumOf : List MojObject → MojDecimal
  | [] => ⟨0⟩
  | val :: vals => vals.foldl addValue (initSum val)

theorem sumOf_concat {vals : List MojObject} (h : vals ≠ []) (val : MojObject) :
    sumOf (vals ++ [val]) = addValue (sumOf vals) val := by
  cases vals with
  | nil => exact absurd rfl h
  | cons v vals => simp [sumOf]

/-- The operation asks for a sum, alone or for an average. -/
def Sums (op : UInt8) : Prop := (has op OpSum || has op OpAvg) = true

instance (op : UInt8) : Decidable (Sums op) := inferInstanceAs (Decidable (_ = _))

/-- An aggregate fed these objects, in this order. -/
structure Tracks (text : MojDbText) (propInfo : AggregatePropInfo) (fed : List (MojObject × MojObject))
    (info : AggregateInfo) : Prop where
  fed_ne : fed ≠ []
  count : (has propInfo.op OpCount || has propInfo.op OpAvg) = true → info.count = fed.length
  sum : Sums propInfo.op → info.sum = sumOf (fed.map Prod.snd)
  min : (has propInfo.op OpMin || has propInfo.op OpFirst) = true → ∃ e ∈ fed, info.first = e.1 ∧ info.min = e.2 ∧
    ∀ x ∈ fed, sortKey text propInfo e.1 ≤ sortKey text propInfo x.1
  max : (has propInfo.op OpMax || has propInfo.op OpLast) = true → ∃ e ∈ fed, info.last = e.1 ∧ info.max = e.2 ∧
    ∀ x ∈ fed, sortKey text propInfo x.1 ≤ sortKey text propInfo e.1

theorem initAggregateInfo_eq (obj val : MojObject) (op : UInt8) :
    ∃ sum avg, (initAggregateInfo obj val op).1 = ⟨op, 1, val, val, sum, avg, obj, obj⟩ ∧ (Sums op → sum = initSum val) := by
  unfold initAggregateInfo Sums
  by_cases h : (has op OpSum || has op OpAvg) = true
  · rw [if_pos h]
    cases val <;> exact ⟨_, _, rfl, fun _ => rfl⟩
  · rw [if_neg h]
    exact ⟨_, _, rfl, fun hs => absurd hs h⟩

theorem init_tracks (text : MojDbText) (propInfo : AggregatePropInfo) (obj val : MojObject) :
    Tracks text propInfo [(obj, val)] (initAggregateInfo obj val propInfo.op).1 := by
  obtain ⟨sum, avg, he, hsum⟩ := initAggregateInfo_eq obj val propInfo.op
  rw [he]
  refine ⟨List.cons_ne_nil _ _, fun _ => rfl, hsum, fun _ => ?_, fun _ => ?_⟩
  · exact ⟨(obj, val), List.mem_cons_self, rfl, rfl, fun x hx => by rw [List.mem_singleton.mp hx]⟩
  · exact ⟨(obj, val), List.mem_cons_self, rfl, rfl, fun x hx => by rw [List.mem_singleton.mp hx]⟩

section

variable {text : MojDbText} {propInfo : AggregatePropInfo} {fed : List (MojObject × MojObject)} {obj val : MojObject}
  {info info' : AggregateInfo}

theorem updateCount_eq (op : UInt8) (info : AggregateInfo) : updateCount op info =
    { info with count := if has op OpCount || has op OpAvg then info.count + 1 else info.count } := by
  unfold updateCount
  split_ifs <;> rfl

theorem updateMin_keeps (text : MojDbText) (propInfo : AggregatePropInfo) (obj val : MojObject) (info : AggregateInfo) :
    ∃ min first, updateMin text propInfo obj val info = { info with min := min, first := first } := by
  unfold updateMin
  split_ifs
  · exact ⟨_, _, rfl⟩
  · exact ⟨info.min, info.first, rfl⟩

theorem updateMax_keeps (text : MojDbText) (propInfo : AggregatePropInfo) (obj val : MojObject) (info : AggregateInfo) :
    ∃ max last, updateMax text propInfo obj val info = { info with max := max, last := last } := by
  unfold updateMax
  split_ifs
  · exact ⟨_, _, rfl⟩
  · exact ⟨info.max, info.last, rfl⟩

/-- The comparison looks at the bound alone. -/
theorem updateMin_congr (hfirst : info.first = info'.first) (hmin : info.min = info'.min) :
    (updateMin text propInfo obj val info).min = (updateMin text propInfo obj val info').min ∧
      (updateMin text propInfo obj val info).first = (updateMin text propInfo obj val info').first := by
  unfold updateMin
  rw [hfirst]
  split_ifs
  · exact ⟨rfl, rfl⟩
  · exact ⟨hmin, hfirst⟩

theorem updateMax_congr (hlast : info.last = info'.last) (hmax : info.max = info'.max) :
    (updateMax text propInfo obj val info).max = (updateMax text propInfo obj val info').max ∧
      (updateMax text propInfo obj val info).last = (updateMax text propInfo obj val info').last := by
  unfold updateMax
  rw [hlast]
  split_ifs
  · exact ⟨rfl, rfl⟩
  · exact ⟨hmax, hlast⟩

theorem updateSum_ok {op : UInt8} (h : updateSum op val info = .ok info') :
    (Sums op → isNumber val = true ∧ info'.sum = addValue info.sum val) ∧
      ∃ sum avg, info' = { info with sum := sum, avg := avg } := by
  unfold updateSum at h
  by_cases hop : (has op OpSum || has op OpAvg) = true
  · rw [if_pos hop] at h
    split_ifs at h with hnum
    cases h
    exact ⟨fun _ => ⟨hnum, rfl⟩, _, _, rfl⟩
  · rw [if_neg hop] at h
    cases h
    exact ⟨fun hs => absurd hs hop, info.sum, info.avg, rfl⟩

theorem updateInfo_ok (h : updateInfo text propInfo obj val info = .ok info') :
    (Sums propInfo.op → isNumber val = true) ∧
      info'.count = (updateCount propInfo.op info).count ∧
      (Sums propInfo.op → info'.sum = addValue info.sum val) ∧
      info'.min = (updateMin text propInfo obj val info).min ∧ info'.first = (updateMin text propInfo obj val info).first ∧
      info'.max = (updateMax text propInfo obj val info).max ∧ info'.last = (updateMax text propInfo obj val info).last := by
  unfold updateInfo at h
  obtain ⟨hsum, sum, avg, rfl⟩ := updateSum_ok h
  obtain ⟨max, last, hmax⟩ := updateMax_keeps text propInfo obj val (updateMin text propInfo obj val (updateCount propInfo.op info))
  obtain ⟨min, first, hmin⟩ := updateMin_keeps text propInfo obj val (updateCount propInfo.op info)
  have hleast : (updateMin text propInfo obj val (updateCount propInfo.op info)).min = (updateMin text propInfo obj val info).min ∧
      (updateMin text propInfo obj val (updateCount propInfo.op info)).first = (updateMin text propInfo obj val info).first :=
    updateMin_congr (by rw [updateCount_eq]) (by rw [updateCount_eq])
  have hlast : (updateMin text propInfo obj val (updateCount propInfo.op info)).last = info.last := by
    rw [hmin, updateCount_eq]
  have hgreatest := @updateMax_congr text propInfo obj val _ info hlast (by rw [hmin, updateCount_eq])
  refine ⟨fun hop => (hsum hop).1, ?_, fun hop => ?_, ?_, ?_, hgreatest.1, hgreatest.2⟩
  · rw [hmax, hmin]
  · rw [(hsum hop).2, hmax, hmin, updateCount_eq]
  · rw [← hleast.1, hmax]
  · rw [← hleast.2, hmax]

theorem update_tracks (hinfo : Tracks text propInfo fed info) (h : updateInfo text propInfo obj val info = .ok info') :
    Tracks text propInfo (fed ++ [(obj, val)]) info' := by
  obtain ⟨-, hcount, hsum, hmin, hfirst, hmax, hlast⟩ := updateInfo_ok h
  refine ⟨by simp, fun hop => ?_, fun hop => ?_, fun hop => ?_, fun hop => ?_⟩
  · rw [hcount, updateCount, if_pos hop, List.length_append, ← hinfo.count hop]
    rfl
  · rw [hsum hop, hinfo.sum hop, List.map_append, List.map_singleton, sumOf_concat]
    simpa using hinfo.fed_ne
  · obtain ⟨e, he, hfe, hme, hleast⟩ := hinfo.min hop
    unfold updateMin at hmin hfirst
    rw [hop, Bool.true_and, hfe] at hmin hfirst
    by_cases hlt : sortKey text propInfo obj < sortKey text propInfo e.1
    · rw [if_pos (decide_eq_true hlt)] at hmin hfirst
      refine ⟨(obj, val), by simp, hfirst, hmin, fun x hx => ?_⟩
      cases List.mem_append.mp hx with
      | inl hx => exact hlt.le.trans (hleast x hx)
      | inr hx => rw [List.mem_singleton.mp hx]
    · rw [if_neg (by simpa using hlt)] at hmin hfirst
      refine ⟨e, List.mem_append_left _ he, hfirst.trans hfe, hmin.trans hme, fun x hx => ?_⟩
      cases List.mem_append.mp hx with
      | inl hx => exact hleast x hx
      | inr hx =>
        rw [List.mem_singleton.mp hx]
        exact not_lt.mp hlt
  · obtain ⟨e, he, hle, hme, hgreatest⟩ := hinfo.max hop
    unfold updateMax at hmax hlast
    rw [hop, Bool.true_and, hle] at hmax hlast
    by_cases hlt : sortKey text propInfo e.1 < sortKey text propInfo obj
    · rw [if_pos (decide_eq_true hlt)] at hmax hlast
      refine ⟨(obj, val), by simp, hlast, hmax, fun x hx => ?_⟩
      cases List.mem_append.mp hx with
      | inl hx => exact (hgreatest x hx).trans hlt.le
      | inr hx => rw [List.mem_singleton.mp hx]
    · rw [if_neg (by simpa using hlt)] at hmax hlast
      refine ⟨e, List.mem_append_left _ he, hlast.trans hle, hmax.trans hme, fun x hx => ?_⟩
      cases List.mem_append.mp hx with
      | inl hx => exact hgreatest x hx
      | inr hx =>
        rw [List.mem_singleton.mp hx]
        exact not_lt.mp hlt

end

/-- Some value behind the first one is no number, where a sum is asked for. -/
def Fails (prop : MojString × AggregatePropInfo) (objs : List MojObject) : Prop :=
  Sums prop.2.op ∧ ∃ val ∈ ((withValue prop.1 objs).map Prod.snd).tail, isNumber val = false

theorem updateInfo_error_iff (text : MojDbText) (propInfo : AggregatePropInfo) (obj val : MojObject) (info : AggregateInfo) :
    (∃ err, updateInfo text propInfo obj val info = .error err) ↔ Sums propInfo.op ∧ isNumber val = false := by
  unfold updateInfo updateSum Sums
  by_cases hop : (has propInfo.op OpSum || has propInfo.op OpAvg) = true
  · cases hnum : isNumber val <;> simp [hop]
  · simp [hop]

theorem withValue_concat (propName : MojString) (objs : List MojObject) (obj : MojObject) :
    withValue propName (objs ++ [obj]) =
      withValue propName objs ++ ((getValue propName obj).map fun val => (obj, val)).toList := by
  unfold withValue
  rw [List.filterMap_append]
  cases h : getValue propName obj <;> simp [h]

theorem fails_concat {prop : MojString × AggregatePropInfo} {objs : List MojObject} {obj : MojObject} :
    Fails prop (objs ++ [obj]) ↔ Fails prop objs ∨
      (Sums prop.2.op ∧ withValue prop.1 objs ≠ [] ∧ ∃ val, getValue prop.1 obj = some val ∧ isNumber val = false) := by
  unfold Fails
  rw [withValue_concat]
  cases hval : getValue prop.1 obj with
  | none => simp
  | some val =>
    cases hobjs : withValue prop.1 objs with
    | nil => simp
    | cons e rest =>
      simp only [Option.map_some, Option.toList_some, List.cons_append, List.map_cons, List.map_append, List.tail_cons,
        List.mem_append, or_and_right, exists_or, List.map_nil, List.mem_singleton]
      simp [and_or_left]

/-- The aggregate of these objects, or none if none has the property. -/
def Tracked (text : MojDbText) (prop : MojString × AggregatePropInfo) (objs : List MojObject) : Option AggregateInfo → Prop
  | none => withValue prop.1 objs = []
  | some info => Tracks text prop.2 (withValue prop.1 objs) info

theorem feedAll_concat (text : MojDbText) (prop : MojString × AggregatePropInfo) (info : Option AggregateInfo)
    (objs : List MojObject) (obj : MojObject) :
    feedAll text prop info (objs ++ [obj]) = feedAll text prop info objs >>= fun info => feed text prop info obj := by
  rw [feedAll, List.foldlM_append]
  refine bind_congr fun info' => ?_
  rw [List.foldlM_cons]
  exact bind_pure _

/-- Induction on the objects, the last one taken off: the aggregate tracks them, up to a value that is no number. -/
theorem feedAll_spec (text : MojDbText) (prop : MojString × AggregatePropInfo) (objs : List MojObject) :
    (∃ info, feedAll text prop none objs = .ok info ∧ ¬ Fails prop objs ∧ Tracked text prop objs info) ∨
    (∃ err, feedAll text prop none objs = .error err ∧ Fails prop objs) := by
  induction objs using List.reverseRecOn with
  | nil => exact .inl ⟨none, rfl, by simp [Fails, withValue], rfl⟩
  | append_singleton objs obj ih =>
    rw [feedAll_concat, fails_concat]
    obtain ⟨info, hrun, hnot, htracked⟩ | ⟨err, hrun, hfails⟩ := ih
    · rw [hrun, ok_bind, feed]
      have hconcat := withValue_concat prop.1 objs obj
      cases hval : getValue prop.1 obj with
      | none =>
        rw [hval] at hconcat
        have hsame : withValue prop.1 (objs ++ [obj]) = withValue prop.1 objs := by simpa using hconcat
        refine .inl ⟨info, rfl, by simp [hnot], ?_⟩
        cases info with
        | none => exact hsame.trans htracked
        | some info =>
          change Tracks _ _ (withValue prop.1 (objs ++ [obj])) info
          rw [hsame]
          exact htracked
      | some val =>
        rw [hval] at hconcat
        have hmore : withValue prop.1 (objs ++ [obj]) = withValue prop.1 objs ++ [(obj, val)] := by simpa using hconcat
        cases info with
        | none =>
          have hnil : withValue prop.1 objs = [] := htracked
          refine .inl ⟨_, rfl, by simp [hnot, hnil], ?_⟩
          change Tracks _ _ (withValue prop.1 (objs ++ [obj])) _
          rw [hmore, hnil]
          exact init_tracks text prop.2 obj val
        | some info =>
          have htracks : Tracks text prop.2 (withValue prop.1 objs) info := htracked
          have herr := updateInfo_error_iff text prop.2 obj val info
          change (∃ info', (updateInfo text prop.2 obj val info).map some = _ ∧ _ ∧ _) ∨
            ∃ err, (updateInfo text prop.2 obj val info).map some = _ ∧ _
          cases hupdate : updateInfo text prop.2 obj val info with
          | error err =>
            obtain ⟨hsums, hnum⟩ := herr.mp ⟨err, hupdate⟩
            exact .inr ⟨err, rfl, .inr ⟨hsums, htracks.fed_ne, val, rfl, hnum⟩⟩
          | ok info' =>
            refine .inl ⟨some info', rfl, fun hf => ?_, ?_⟩
            · cases hf with
              | inl hf => exact hnot hf
              | inr hf =>
                obtain ⟨hsums, -, v, hv, hnum⟩ := hf
                cases hv
                obtain ⟨err, he⟩ := herr.mpr ⟨hsums, hnum⟩
                rw [hupdate] at he
                cases he
            · change Tracks _ _ (withValue prop.1 (objs ++ [obj])) info'
              rw [hmore]
              exact update_tracks htracks hupdate
    · rw [hrun]
      exact .inr ⟨err, rfl, .inl hfails⟩

/-! ## What the claim says -/

/-- The objects of the group that have the property, each once. -/
def members (filter : MojDbAggregateFilter) (group : MojObject) (propName : MojString) (objs : List MojObject) :
    List (MojObject × MojObject) :=
  withValue propName (objs.filter fun obj => group ∈ filter.groupsOf obj)

/-- A number in millionths. -/
def rep : MojObject → Int
  | .int i => i.toInt * 1000000
  | .decimal d => d.rep.toInt
  | _ => 0

/-- The reported values are those of the objects. The bound is the value of each object with the least (greatest) sort
key, so that it does not depend on which of them comes first. -/
structure Reports (text : MojDbText) (propInfo : AggregatePropInfo) (objs : List (MojObject × MojObject))
    (info : AggregateInfo) : Prop where
  count : has propInfo.op OpCount = true → info.count = objs.length
  sum : has propInfo.op OpSum = true → info.sum.rep.toInt = (objs.map fun e => rep e.2).sum
  min : has propInfo.op OpMin = true → ∃ e ∈ objs, info.min = e.2 ∧
    (∀ x ∈ objs, sortKey text propInfo e.1 ≤ sortKey text propInfo x.1) ∧
    ∀ x ∈ objs, sortKey text propInfo x.1 = sortKey text propInfo e.1 → x.2 = e.2
  max : has propInfo.op OpMax = true → ∃ e ∈ objs, info.max = e.2 ∧
    (∀ x ∈ objs, sortKey text propInfo x.1 ≤ sortKey text propInfo e.1) ∧
    ∀ x ∈ objs, sortKey text propInfo x.1 = sortKey text propInfo e.1 → x.2 = e.2

/-- Some object that counts for a group has a value that is no number, where a sum is asked for. -/
def NonNumeric (filter : MojDbAggregateFilter) (objs : List MojObject) : Prop :=
  ∃ obj ∈ objs, ∃ prop ∈ filter.aggregateProps, Sums prop.2.op ∧ filter.groupsOf obj ≠ [] ∧
    ∃ val, getValue prop.1 obj = some val ∧ isNumber val = false

/-- The aggregates of a group. -/
def CellClaimed (filter : MojDbAggregateFilter) (objs : List MojObject) (group : MojObject)
    (prop : MojString × AggregatePropInfo) : Option AggregateInfo → Prop
  | none => filter.members group prop.1 objs = []
  | some info => filter.members group prop.1 objs ≠ [] ∧ Reports filter.text prop.2 (filter.members group prop.1 objs) info

def Claimed (filter : MojDbAggregateFilter) (objs : List MojObject) : Prop :=
  match filter.run objs with
  | .error _ => filter.NonNumeric objs
  | .ok groups => ¬ filter.NonNumeric objs ∧
      (∀ group, (groups group).isSome = true ↔ ∃ obj ∈ objs, group ∈ filter.groupsOf obj) ∧
      ∀ group, ∀ prop ∈ filter.aggregateProps, filter.CellClaimed objs group prop (cell groups group prop.1)

/-! ## One more object -/

theorem numerator_toInt : MojDecimal.Numerator.toInt = 1000000 := by decide

theorem fraction_eq_zero {sum : MojDecimal} {m : Int} (h : sum.rep.toInt = m * 1000000) : sum.fraction = 0 := by
  have hlow : -2 ^ 63 ≤ sum.rep.toInt := Int64.le_toInt sum.rep
  have hhigh : sum.rep.toInt < 2 ^ 63 := Int64.toInt_lt sum.rep
  have habs : ∃ n : Int, (if sum.rep < 0 then -sum.rep else sum.rep).toInt = n * 1000000 := by
    by_cases hneg : sum.rep < 0
    · rw [if_pos hneg, Int64.toInt_neg, h, Int.bmod_eq_of_le (by omega) (by omega)]
      exact ⟨-m, by ring⟩
    · rw [if_neg hneg, h]
      exact ⟨m, rfl⟩
  obtain ⟨n, hn⟩ := habs
  refine Int64.toInt_inj.mp ?_
  rw [MojDecimal.fraction, Int64.toInt_mod, hn, numerator_toInt, Int.mul_tmod_left]
  rfl

/-- Whole numbers are added exactly up to the ends of the representation. -/
theorem addValue_int {sum : MojDecimal} {m : Int} {i : Int64} (h : sum.rep.toInt = m * 1000000)
    (hlow : -2 ^ 63 ≤ (m + i.toInt) * 1000000) (hhigh : (m + i.toInt) * 1000000 < 2 ^ 63) :
    (addValue sum (.int i)).rep.toInt = sum.rep.toInt + rep (.int i) := by
  have hmag : sum.magnitude.toInt = m := by
    rw [MojDecimal.magnitude, Int64.toInt_div_of_ne_right _ _ (by decide), h, numerator_toInt]
    exact Int.mul_tdiv_cancel m (by decide)
  have hadd : (sum.magnitude + i).toInt = m + i.toInt := by
    rw [Int64.toInt_add, hmag]
    exact Int.bmod_eq_of_le (by omega) (by omega)
  rw [addValue, if_pos (fraction_eq_zero h), MojDecimal.ofMagnitude, Int64.toInt_mul, hadd, numerator_toInt, h, rep,
    Int.bmod_eq_of_le (by omega) (by omega)]
  ring
/-- Decimals are added by way of doubles, exactly below 2^49 millionths. -/
theorem addValue_decimal {sum d : MojDecimal} (h : |sum.rep.toInt| + |d.rep.toInt| ≤ 2 ^ 49) :
    (addValue sum (.decimal d)).rep.toInt = sum.rep.toInt + rep (.decimal d) := MojDecimal.addDouble_rep h

/-- The sum with the value added to it a number of times. -/
def addTimes (sum : MojDecimal) (val : MojObject) : Nat → MojDecimal
  | 0 => sum
  | n + 1 => addValue (addTimes sum val n) val

/-- The exact sum of the members, in millionths. -/
def total (objs : List (MojObject × MojObject)) : Int := (objs.map fun e => rep e.2).sum

/-- The millionths a decimal can hold. -/
def InRange (x : Int) : Prop := -2 ^ 63 ≤ x ∧ x < 2 ^ 63

/-- Adding the value to the sum of the members, or beginning the sum with it, gives the exact sum. -/
def AddsExactly (objs : List (MojObject × MojObject)) (times : Nat) (val : MojObject) : Prop :=
  ∃ sum : MojDecimal, sum.rep.toInt = total objs ∧
    (if objs = [] then addTimes (initSum val) val (times - 1) else addTimes sum val times).rep.toInt = total objs + rep val

/-- A sum, in millionths, has room for a value: both whole numbers and the result within the representation, or both
below 2^49. -/
def HasRoom (sum : Int) (val : MojObject) : Prop :=
  (1000000 ∣ sum ∧ (∃ i, val = .int i) ∧ InRange sum ∧ InRange (sum + rep val)) ∨ |sum| + |rep val| ≤ 2 ^ 49

/-- The sum of the members has room, or begins with a decimal; what is not zero is added once. -/
def SumFits (objs : List (MojObject × MojObject)) (times : Nat) (val : MojObject) : Prop :=
  (times = 1 ∨ rep val = 0) ∧ (HasRoom (total objs) val ∨ (objs = [] ∧ ∃ d, val = .decimal d))

/-- What a right sum cannot do without. -/
def SumNeeds (objs : List (MojObject × MojObject)) (times : Nat) (val : MojObject) : Prop :=
  InRange (total objs + rep val) ∧ (|total objs| + times * |rep val| ≤ 2 ^ 49 → times = 1 ∨ rep val = 0)

/-- An object with a number joins the aggregate of a group that holds these objects already; `Adds` is what a sum asks. -/
structure JoinsWell (Adds : List (MojObject × MojObject) → Nat → MojObject → Prop) (text : MojDbText)
    (propInfo : AggregatePropInfo) (objs : List (MojObject × MojObject)) (times : Nat) (obj val : MojObject) : Prop where
  count : has propInfo.op OpCount = true → times = 1
  sum : has propInfo.op OpSum = true → Adds objs times val
  min : has propInfo.op OpMin = true → ∀ x ∈ objs, (∀ y ∈ objs, sortKey text propInfo x.1 ≤ sortKey text propInfo y.1) →
    sortKey text propInfo x.1 = sortKey text propInfo obj → x.2 = val
  max : has propInfo.op OpMax = true → ∀ x ∈ objs, (∀ y ∈ objs, sortKey text propInfo y.1 ≤ sortKey text propInfo x.1) →
    sortKey text propInfo x.1 = sortKey text propInfo obj → x.2 = val

/-- The object is refused, as a value that is no number has to be. -/
def Refused (filter : MojDbAggregateFilter) (front : List MojObject) (obj : MojObject) : Prop :=
  ∃ prop ∈ filter.aggregateProps, Sums prop.2.op ∧ (∃ val, getValue prop.1 obj = some val ∧ isNumber val = false) ∧
    ∃ group ∈ filter.groupsOf obj, 1 < (filter.groupsOf obj).count group ∨ filter.members group prop.1 front ≠ []

/-- The object joins the aggregates of all its groups. -/
def Joined (Adds : List (MojObject × MojObject) → Nat → MojObject → Prop) (filter : MojDbAggregateFilter)
    (front : List MojObject) (obj : MojObject) : Prop :=
  ∀ prop ∈ filter.aggregateProps, ∀ val, getValue prop.1 obj = some val → ∀ group ∈ filter.groupsOf obj,
    JoinsWell Adds filter.text prop.2 (filter.members group prop.1 front) ((filter.groupsOf obj).count group) obj val

/-- After objects without such a value: one with a value that is no number is refused, any other one joins. -/
def StepWell (Adds : List (MojObject × MojObject) → Nat → MojObject → Prop) (filter : MojDbAggregateFilter)
    (front : List MojObject) (obj : MojObject) : Prop :=
  ¬ filter.NonNumeric front →
    (filter.NonNumeric [obj] → filter.Refused front obj) ∧ (¬ filter.NonNumeric [obj] → Joined Adds filter front obj)

theorem StepWell.mono {Adds Adds' : List (MojObject × MojObject) → Nat → MojObject → Prop}
    (hmono : ∀ objs times val, 0 < times → Adds objs times val → Adds' objs times val) {filter : MojDbAggregateFilter}
    {front : List MojObject} {obj : MojObject} (h : StepWell Adds filter front obj) : StepWell Adds' filter front obj := by
  refine fun hfront => ⟨(h hfront).1, fun hobj prop hprop val hval group hgroup => ?_⟩
  have hjoins := (h hfront).2 hobj prop hprop val hval group hgroup
  exact { hjoins with sum := fun hop => hmono _ _ _ (List.count_pos_iff.mpr hgroup) (hjoins.sum hop) }

/-! ### The sums that are exact -/

theorem fraction_ne_zero {sum : MojDecimal} (hsmall : |sum.rep.toInt| ≤ 2 ^ 49) (h : ¬ 1000000 ∣ sum.rep.toInt) :
    sum.fraction ≠ 0 := by
  intro hzero
  have hbounds := abs_le.mp hsmall
  have hmod : sum.fraction.toInt = 0 := by
    rw [hzero]
    rfl
  rw [MojDecimal.fraction, Int64.toInt_mod, numerator_toInt] at hmod
  refine h ?_
  by_cases hneg : sum.rep < 0
  · rw [if_pos hneg, Int64.toInt_neg, Int.bmod_eq_of_le (by omega) (by omega)] at hmod
    exact (Int.dvd_neg).mp (Int.dvd_of_tmod_eq_zero hmod)
  · rw [if_neg hneg] at hmod
    exact Int.dvd_of_tmod_eq_zero hmod

theorem initSum_rep {val : MojObject} (h : InRange (rep val)) : (initSum val).rep.toInt = rep val := by
  obtain ⟨hlow, hhigh⟩ := h
  cases val with
  | int i =>
    rw [rep] at hlow hhigh ⊢
    rw [initSum, MojDecimal.ofMagnitude, Int64.toInt_mul, numerator_toInt, Int.bmod_eq_of_le (by omega) (by omega)]
  | _ => rfl

theorem inRange_of_abs {x : Int} (h : |x| ≤ 2 ^ 49) : InRange x := by
  obtain ⟨hlow, hhigh⟩ := abs_le.mp h
  exact ⟨by omega, by omega⟩

theorem inRange_rep (d : MojDecimal) : InRange d.rep.toInt := ⟨Int64.le_toInt d.rep, Int64.toInt_lt d.rep⟩

/-- A value the sum has room for is added exactly. -/
theorem addValue_rep {sum : MojDecimal} {val : MojObject} (h : HasRoom sum.rep.toInt val) :
    (addValue sum val).rep.toInt = sum.rep.toInt + rep val := by
  have hwhole : ∀ i, 1000000 ∣ sum.rep.toInt → InRange (sum.rep.toInt + rep (.int i)) →
      (addValue sum (.int i)).rep.toInt = sum.rep.toInt + rep (.int i) := by
    intro i hdvd hrange
    obtain ⟨m, hm⟩ := hdvd
    obtain ⟨hlow, hhigh⟩ := hrange
    rw [rep, hm] at hlow hhigh
    exact addValue_int (hm.trans (mul_comm _ _)) (by linarith) (by linarith)
  rcases h with ⟨hdvd, ⟨i, rfl⟩, -, hrange⟩ | hsmall
  · exact hwhole i hdvd hrange
  · cases val with
    | int i =>
      by_cases hdvd : 1000000 ∣ sum.rep.toInt
      · exact hwhole i hdvd (inRange_of_abs ((abs_add_le _ _).trans hsmall))
      · -- a fractional sum takes a whole number by way of doubles too
        have hrep : (MojDecimal.ofMagnitude i).rep.toInt = rep (.int i) :=
          @initSum_rep (.int i) (inRange_of_abs ((le_add_of_nonneg_left (abs_nonneg _)).trans hsmall))
        rw [addValue, if_neg (fraction_ne_zero ((le_add_of_nonneg_right (abs_nonneg _)).trans hsmall) hdvd),
          MojDecimal.addDouble_rep (hrep ▸ hsmall), hrep]
    | decimal d => exact addValue_decimal hsmall
    | _ => exact (Int.add_zero _).symm

theorem addTimes_zero {sum : MojDecimal} {val : MojObject} (h : HasRoom sum.rep.toInt val) (hzero : rep val = 0) (n : Nat) :
    (addTimes sum val n).rep.toInt = sum.rep.toInt := by
  induction n with
  | zero => rfl
  | succ n ih =>
    rw [addTimes, addValue_rep (by rwa [ih]), ih, hzero, Int.add_zero]

theorem addTimes_rep {sum : MojDecimal} {val : MojObject} {n : Nat} (h : |sum.rep.toInt| + n * |rep val| ≤ 2 ^ 49) :
    (addTimes sum val n).rep.toInt = sum.rep.toInt + n * rep val := by
  induction n with
  | zero => simp [addTimes]
  | succ n ih =>
    have hnonneg := abs_nonneg (rep val)
    push_cast at h ⊢
    have hn := ih (by linarith)
    have habs : |sum.rep.toInt + n * rep val| ≤ |sum.rep.toInt| + n * |rep val| := by
      refine (abs_add_le _ _).trans (le_of_eq ?_)
      rw [abs_mul, Nat.abs_cast]
    rw [addTimes, addValue_rep (.inr (by rw [hn]; linarith)), hn]
    ring

theorem SumFits.adds {objs : List (MojObject × MojObject)} {times : Nat} {val : MojObject} (htimes : 0 < times)
    (h : SumFits objs times val) : AddsExactly objs times val := by
  obtain ⟨honce, hroom⟩ := h
  by_cases hobjs : objs = []
  · subst hobjs
    have hrange : InRange (rep val) := by
      rcases hroom with (⟨-, -, -, hrange⟩ | hsmall) | ⟨-, d, rfl⟩
      · rwa [total, List.map_nil, List.sum_nil, Int.zero_add] at hrange
      · exact inRange_of_abs ((le_add_of_nonneg_left (abs_nonneg _)).trans hsmall)
      · exact inRange_rep d
    refine ⟨⟨0⟩, rfl, ?_⟩
    rw [if_pos rfl, total, List.map_nil, List.sum_nil, Int.zero_add]
    cases honce with
    | inl honce =>
      subst honce
      exact initSum_rep hrange
    | inr hzero =>
      have hinit := initSum_rep hrange
      rw [addTimes_zero (.inr (by rw [hinit, hzero]; decide)) hzero, hinit]
  · have hroom : HasRoom (total objs) val := hroom.resolve_right fun hnil => hobjs hnil.1
    have htotal : InRange (total objs) := by
      rcases hroom with ⟨-, -, hrange, -⟩ | hsmall
      · exact hrange
      · exact inRange_of_abs ((le_add_of_nonneg_right (abs_nonneg _)).trans hsmall)
    have hsum : (Int64.ofInt (total objs)).toInt = total objs :=
      Int64.toInt_ofInt_of_le htotal.1 htotal.2
    refine ⟨⟨Int64.ofInt (total objs)⟩, hsum, ?_⟩
    rw [if_neg hobjs]
    have hroom : HasRoom (⟨Int64.ofInt (total objs)⟩ : MojDecimal).rep.toInt val := by rwa [hsum]
    cases honce with
    | inl honce =>
      subst honce
      rw [addTimes, addTimes, addValue_rep hroom, hsum]
    | inr hzero => rw [addTimes_zero hroom hzero, hsum, hzero, Int.add_zero]

theorem AddsExactly.needs {objs : List (MojObject × MojObject)} {times : Nat} {val : MojObject} (htimes : 0 < times)
    (h : AddsExactly objs times val) : SumNeeds objs times val := by
  obtain ⟨sum, hsum, hadd⟩ := h
  refine ⟨hadd ▸ inRange_rep _, fun hsmall => ?_⟩
  have hnonneg := abs_nonneg (rep val)
  have hall : total objs + times * rep val = total objs + rep val := by
    by_cases hobjs : objs = []
    · obtain ⟨n, rfl⟩ := Nat.exists_eq_succ_of_ne_zero htimes.ne'
      subst hobjs
      rw [total, List.map_nil, List.sum_nil] at hsmall hadd ⊢
      push_cast at hsmall ⊢
      rw [abs_zero] at hsmall
      have hmul : 0 ≤ n * |rep val| := by positivity
      have hinit : (initSum val).rep.toInt = rep val := initSum_rep (inRange_of_abs (by linarith))
      rw [if_pos rfl, Nat.succ_sub_one, addTimes_rep (by rw [hinit]; linarith), hinit] at hadd
      linarith
    · rw [if_neg hobjs, addTimes_rep (by rwa [hsum]), hsum] at hadd
      exact hadd
  have hzero : ((times : Int) - 1) * rep val = 0 := by linarith
  cases mul_eq_zero.mp hzero with
  | inl hone => exact .inl (by omega)
  | inr hrep => exact .inr hrep

theorem mem_withValue {propName : MojString} {objs : List MojObject} {e : MojObject × MojObject} :
    e ∈ withValue propName objs ↔ e.1 ∈ objs ∧ getValue propName e.1 = some e.2 := by
  obtain ⟨obj, val⟩ := e
  simp [withValue]

theorem mem_objectsIn {filter : MojDbAggregateFilter} {group : MojObject} {objs : List MojObject} {obj : MojObject} :
    obj ∈ filter.objectsIn group objs ↔ obj ∈ objs ∧ group ∈ filter.groupsOf obj := by
  simp [objectsIn, callsIn, callsOf]

/-- What an aggregate is fed are the members of its group, some of them more than once. -/
theorem mem_fed_iff {filter : MojDbAggregateFilter} {group : MojObject} {propName : MojString} {objs : List MojObject}
    (e : MojObject × MojObject) :
    e ∈ withValue propName (filter.objectsIn group objs) ↔ e ∈ filter.members group propName objs := by
  rw [members, mem_withValue, mem_withValue, mem_objectsIn, List.mem_filter, decide_eq_true_iff]

theorem withValue_replicate {propName : MojString} {obj val : MojObject} (h : getValue propName obj = some val) (n : Nat) :
    withValue propName (List.replicate n obj) = List.replicate n (obj, val) := by
  simp [withValue, h]

theorem fed_concat (filter : MojDbAggregateFilter) (group : MojObject) {propName : MojString} (front : List MojObject)
    {obj val : MojObject} (h : getValue propName obj = some val) :
    withValue propName (filter.objectsIn group (front ++ [obj])) =
      withValue propName (filter.objectsIn group front) ++ List.replicate ((filter.groupsOf obj).count group) (obj, val) := by
  rw [objectsIn_append, objectsIn_singleton, ← withValue_replicate h]
  exact List.filterMap_append

theorem members_concat (filter : MojDbAggregateFilter) (group : MojObject) {propName : MojString} (front : List MojObject)
    {obj val : MojObject} (h : getValue propName obj = some val) (hgroup : group ∈ filter.groupsOf obj) :
    filter.members group propName (front ++ [obj]) = filter.members group propName front ++ [(obj, val)] := by
  simp [members, withValue, List.filter_append, hgroup, h]

/-- An object without the property, or of another group, changes nothing. -/
theorem same_of_other {filter : MojDbAggregateFilter} {group : MojObject} {propName : MojString} {obj : MojObject}
    (h : getValue propName obj = none ∨ group ∉ filter.groupsOf obj) (front : List MojObject) :
    withValue propName (filter.objectsIn group (front ++ [obj])) = withValue propName (filter.objectsIn group front) ∧
      filter.members group propName (front ++ [obj]) = filter.members group propName front := by
  rw [objectsIn_append, objectsIn_singleton]
  cases h with
  | inl h => simp [members, withValue, List.filter_append, List.filter_cons, apply_ite, h]
  | inr h => simp [members, withValue, List.filter_append, h, List.count_eq_zero.mpr h]

/-! ## What is fed against the members -/

/-- What the members are for the reports. -/
structure Fits (text : MojDbText) (propInfo : AggregatePropInfo) (fed objs : List (MojObject × MojObject)) : Prop where
  count : has propInfo.op OpCount = true → fed.length = objs.length
  sum : has propInfo.op OpSum = true → (sumOf (fed.map Prod.snd)).rep.toInt = (objs.map fun e => rep e.2).sum
  min : has propInfo.op OpMin = true → ∀ x ∈ objs, (∀ y ∈ objs, sortKey text propInfo x.1 ≤ sortKey text propInfo y.1) →
    ∀ y ∈ objs, sortKey text propInfo y.1 = sortKey text propInfo x.1 → y.2 = x.2
  max : has propInfo.op OpMax = true → ∀ x ∈ objs, (∀ y ∈ objs, sortKey text propInfo y.1 ≤ sortKey text propInfo x.1) →
    ∀ y ∈ objs, sortKey text propInfo y.1 = sortKey text propInfo x.1 → y.2 = x.2

section

variable {text : MojDbText} {propInfo : AggregatePropInfo} {fed objs : List (MojObject × MojObject)} {info : AggregateInfo}

theorem sums_of_sum {op : UInt8} (h : has op OpSum = true) : Sums op := by
  rw [Sums, h, Bool.true_or]

theorem reports_iff (htracks : Tracks text propInfo fed info) (hmem : ∀ e, e ∈ fed ↔ e ∈ objs) :
    Reports text propInfo objs info ↔ Fits text propInfo fed objs := by
  refine ⟨fun h => ⟨fun hop => ?_, fun hop => ?_, fun hop x hx hleast y hy hkey => ?_, fun hop x hx hgreatest y hy hkey => ?_⟩,
    fun h => ⟨fun hop => ?_, fun hop => ?_, fun hop => ?_, fun hop => ?_⟩⟩
  · rw [← htracks.count (by rw [hop, Bool.true_or]), h.count hop]
  · rw [← htracks.sum (sums_of_sum hop), h.sum hop]
  · obtain ⟨e, he, -, hle, hall⟩ := h.min hop
    have hex : sortKey text propInfo x.1 = sortKey text propInfo e.1 := le_antisymm (hleast e he) (hle x hx)
    rw [hall x hx hex, hall y hy (hkey.trans hex)]
  · obtain ⟨e, he, -, hle, hall⟩ := h.max hop
    have hex : sortKey text propInfo x.1 = sortKey text propInfo e.1 := le_antisymm (hle x hx) (hgreatest e he)
    rw [hall x hx hex, hall y hy (hkey.trans hex)]
  · rw [htracks.count (by rw [hop, Bool.true_or]), h.count hop]
  · rw [htracks.sum (sums_of_sum hop), h.sum hop]
  · obtain ⟨e, he, -, hmin, hle⟩ := htracks.min (by rw [hop, Bool.true_or])
    have hleast : ∀ y ∈ objs, sortKey text propInfo e.1 ≤ sortKey text propInfo y.1 := fun y hy => hle y ((hmem y).mpr hy)
    exact ⟨e, (hmem e).mp he, hmin, hleast, fun y hy => h.min hop e ((hmem e).mp he) hleast y hy⟩
  · obtain ⟨e, he, -, hmax, hle⟩ := htracks.max (by rw [hop, Bool.true_or])
    have hgreatest : ∀ y ∈ objs, sortKey text propInfo y.1 ≤ sortKey text propInfo e.1 := fun y hy => hle y ((hmem y).mpr hy)
    exact ⟨e, (hmem e).mp he, hmax, hgreatest, fun y hy => h.max hop e ((hmem e).mp he) hgreatest y hy⟩

theorem foldl_addValue_replicate (sum : MojDecimal) (val : MojObject) (n : Nat) :
    (List.replicate n val).foldl addValue sum = addTimes sum val n := by
  induction n with
  | zero => rfl
  | succ n ih => rw [List.replicate_succ', List.foldl_append, ih]; rfl

theorem sumOf_replicate (vals : List MojObject) (val : MojObject) {n : Nat} (hn : 0 < n) :
    sumOf (vals ++ List.replicate n val) =
      if vals = [] then addTimes (initSum val) val (n - 1) else addTimes (sumOf vals) val n := by
  cases vals with
  | nil =>
    obtain ⟨m, rfl⟩ := Nat.exists_eq_succ_of_ne_zero hn.ne'
    rw [List.nil_append, List.replicate_succ, if_pos rfl, Nat.succ_sub_one]
    exact foldl_addValue_replicate (initSum val) val m
  | cons v vals =>
    rw [List.cons_append, sumOf, List.foldl_append, foldl_addValue_replicate, if_neg (List.cons_ne_nil _ _), sumOf]

/-- One more object leaves the least ones equal exactly if it equals those it is level with. -/
theorem least_concat_iff {K : Type*} [LinearOrder K] {key : MojObject × MojObject → K} {e : MojObject × MojObject}
    (h : ∀ x ∈ objs, (∀ y ∈ objs, key x ≤ key y) → ∀ y ∈ objs, key y = key x → y.2 = x.2) :
    (∀ x ∈ objs ++ [e], (∀ y ∈ objs ++ [e], key x ≤ key y) → ∀ y ∈ objs ++ [e], key y = key x → y.2 = x.2) ↔
      ∀ x ∈ objs, (∀ y ∈ objs, key x ≤ key y) → key x = key e → x.2 = e.2 := by
  have hmem : ∀ x, x ∈ objs ++ [e] ↔ x ∈ objs ∨ x = e := fun x => by rw [List.mem_append, List.mem_singleton]
  simp only [hmem]
  refine ⟨fun hall x hx hleast hkey => ?_, fun hnew x hx hleast y hy hkey => ?_⟩
  · refine hall e (.inr rfl) (fun y hy => ?_) x (.inl hx) hkey
    cases hy with
    | inl hy => exact hkey ▸ hleast y hy
    | inr hy => rw [hy]
  · have hle : ∀ z ∈ objs, key z = key x → ∀ w ∈ objs, key z ≤ key w := fun z _ hz w hw => hz ▸ hleast w (.inl hw)
    cases hx with
    | inl hx =>
      cases hy with
      | inl hy => exact h x hx (hle x hx rfl) y hy hkey
      | inr hy =>
        subst hy
        exact (hnew x hx (hle x hx rfl) hkey.symm).symm
    | inr hx =>
      cases hy with
      | inl hy =>
        subst hx
        exact hnew y hy (hle y hy hkey) hkey
      | inr hy => rw [hx, hy]

/-- One more object keeps the reports right exactly if it joins well. -/
theorem fits_concat_iff (hfits : Fits text propInfo fed objs) (hmem : ∀ e, e ∈ fed ↔ e ∈ objs) {obj val : MojObject}
    {times : Nat} (htimes : 0 < times) :
    Fits text propInfo (fed ++ List.replicate times (obj, val)) (objs ++ [(obj, val)]) ↔
      JoinsWell AddsExactly text propInfo objs times obj val := by
  have hnil : fed.map Prod.snd = [] ↔ objs = [] := by
    rw [List.map_eq_nil_iff, List.eq_nil_iff_forall_not_mem, List.eq_nil_iff_forall_not_mem]
    exact forall_congr' fun e => not_congr (hmem e)
  have hcount : has propInfo.op OpCount = true →
      ((fed ++ List.replicate times (obj, val)).length = (objs ++ [(obj, val)]).length ↔ times = 1) := by
    intro hop
    rw [List.length_append, List.length_append, List.length_replicate, List.length_singleton, hfits.count hop]
    omega
  have hsum : has propInfo.op OpSum = true →
      ((sumOf ((fed ++ List.replicate times (obj, val)).map Prod.snd)).rep.toInt = total objs + rep val ↔
        AddsExactly objs times val) := by
    intro hop
    rw [List.map_append, List.map_replicate, sumOf_replicate _ _ htimes, if_congr hnil rfl rfl]
    refine ⟨fun h => ⟨_, hfits.sum hop, h⟩, fun ⟨sum, hrep, h⟩ => ?_⟩
    obtain rfl : sum = sumOf (fed.map Prod.snd) :=
      congrArg MojDecimal.mk (Int64.toInt_inj.mp (hrep.trans (hfits.sum hop).symm))
    exact h
  have htotal : ((objs ++ [(obj, val)]).map fun e => rep e.2).sum = total objs + rep val := by simp [total]
  refine ⟨fun h => ⟨fun hop => (hcount hop).mp (h.count hop), fun hop => ?_, fun hop => ?_, fun hop => ?_⟩,
    fun h => ⟨fun hop => (hcount hop).mpr (h.count hop), fun hop => ?_, fun hop => ?_, fun hop => ?_⟩⟩
  · rw [← hsum hop, ← htotal]
    exact h.sum hop
  · exact (least_concat_iff (hfits.min hop)).mp (h.min hop)
  · exact (least_concat_iff (K := (List MojDbKey)ᵒᵈ) (hfits.max hop)).mp (h.max hop)
  · rw [htotal]
    exact (hsum hop).mpr (h.sum hop)
  · exact (least_concat_iff (hfits.min hop)).mpr (h.min hop)
  · exact (least_concat_iff (K := (List MojDbKey)ᵒᵈ) (hfits.max hop)).mpr (h.max hop)

end

/-! ## Runs -/

/-- A run is stopped by a value that is no number behind another one, or each aggregate tracks its objects. -/
theorem run_cases (filter : MojDbAggregateFilter) (objs : List MojObject) :
    (∃ groups, filter.run objs = .ok groups ∧
      (∀ group, (groups group).isSome = true ↔ ∃ obj ∈ objs, group ∈ filter.groupsOf obj) ∧
      ∀ group, ∀ prop ∈ filter.aggregateProps, ¬ Fails prop (filter.objectsIn group objs) ∧
        Tracked filter.text prop (filter.objectsIn group objs) (cell groups group prop.1)) ∨
    (filter.run objs = .error .dbInvalidAggregateType ∧
      ∃ group, ∃ prop ∈ filter.aggregateProps, Fails prop (filter.objectsIn group objs)) := by
  obtain ⟨groups, hrun, hsome, hall⟩ | ⟨hrun, group, prop, hprop, herr⟩ := filter.run_spec objs
  · refine .inl ⟨groups, hrun, hsome, fun group prop hprop => ?_⟩
    obtain ⟨info, hfeed, hnot, htracked⟩ | ⟨err, hfeed, -⟩ := feedAll_spec filter.text prop (filter.objectsIn group objs)
    · obtain rfl : info = cell groups group prop.1 := Except.ok.inj (hfeed.symm.trans (hall group prop hprop))
      exact ⟨hnot, htracked⟩
    · rw [hall group prop hprop] at hfeed
      cases hfeed
  · refine .inr ⟨hrun, group, prop, hprop, ?_⟩
    obtain ⟨info, hfeed, -⟩ | ⟨err, -, hfails⟩ := feedAll_spec filter.text prop (filter.objectsIn group objs)
    · rw [herr] at hfeed
      cases hfeed
    · exact hfails

theorem Fails.nonNumeric {filter : MojDbAggregateFilter} {group : MojObject} {prop : MojString × AggregatePropInfo}
    {objs : List MojObject} (hprop : prop ∈ filter.aggregateProps) (h : Fails prop (filter.objectsIn group objs)) :
    filter.NonNumeric objs := by
  obtain ⟨hsums, val, hval, hnum⟩ := h
  obtain ⟨e, he, rfl⟩ := List.mem_map.mp (List.mem_of_mem_tail hval)
  obtain ⟨hobj, hget⟩ := mem_withValue.mp he
  obtain ⟨hmem, hgroup⟩ := mem_objectsIn.mp hobj
  exact ⟨e.1, hmem, prop, hprop, hsums, List.ne_nil_of_mem hgroup, e.2, hget, hnum⟩

theorem Fails.append {filter : MojDbAggregateFilter} {group : MojObject} {prop : MojString × AggregatePropInfo}
    {objs : List MojObject} (h : Fails prop (filter.objectsIn group objs)) (objs' : List MojObject) :
    Fails prop (filter.objectsIn group (objs ++ objs')) := by
  obtain ⟨hsums, val, hval, hnum⟩ := h
  refine ⟨hsums, val, ?_, hnum⟩
  rw [objectsIn_append, withValue, List.filterMap_append, List.map_append,
    List.tail_append_of_ne_nil (fun hnil => ?_)]
  · exact List.mem_append_left _ hval
  · have hempty : ((withValue prop.1 (filter.objectsIn group objs)).map Prod.snd).tail = [] := congrArg List.tail hnil
    rw [hempty] at hval
    cases hval

theorem nonNumeric_append {filter : MojDbAggregateFilter} {objs objs' : List MojObject} :
    filter.NonNumeric (objs ++ objs') ↔ filter.NonNumeric objs ∨ filter.NonNumeric objs' := by
  unfold NonNumeric
  simp only [List.mem_append, or_and_right, exists_or]

/-- The values an aggregate is fed with one more object: a value is behind the first if there is one before it. -/
theorem mem_tail_concat {vals : List MojObject} {val v : MojObject} {n : Nat} :
    v ∈ (vals ++ List.replicate n val).tail ↔ v ∈ vals.tail ∨ (v = val ∧ (1 < n ∨ vals ≠ [] ∧ 0 < n)) := by
  cases vals with
  | nil =>
    rw [List.nil_append, List.tail_replicate, List.mem_replicate]
    simp only [List.tail_nil, List.not_mem_nil, ne_eq, not_true, false_and, or_false, false_or]
    exact ⟨fun h => ⟨h.2, by omega⟩, fun h => ⟨by omega, h.1⟩⟩
  | cons w vals =>
    rw [List.cons_append, List.tail_cons, List.tail_cons, List.mem_append, List.mem_replicate]
    simp only [ne_eq, reduceCtorEq, not_false_eq_true, true_and]
    refine or_congr_right ⟨fun h => ⟨h.2, .inr (by omega)⟩, fun h => ⟨by omega, h.1⟩⟩

/-- Behind objects with numbers only, a run is stopped exactly by an object it refuses. -/
theorem refused_iff {filter : MojDbAggregateFilter} {front : List MojObject} {obj : MojObject} (h : ¬ filter.NonNumeric front) :
    (∃ group, ∃ prop ∈ filter.aggregateProps, Fails prop (filter.objectsIn group (front ++ [obj]))) ↔
      filter.Refused front obj := by
  have hnil : ∀ group (prop : MojString × AggregatePropInfo),
      (withValue prop.1 (filter.objectsIn group front)).map Prod.snd ≠ [] ↔ filter.members group prop.1 front ≠ [] := by
    intro group prop
    rw [ne_eq, ne_eq, List.map_eq_nil_iff, List.eq_nil_iff_forall_not_mem, List.eq_nil_iff_forall_not_mem]
    exact not_congr (forall_congr' fun e => not_congr (mem_fed_iff e))
  refine ⟨fun hfails => ?_, fun hrefused => ?_⟩
  · obtain ⟨group, prop, hprop, hfails⟩ := hfails
    have hnot : ¬ Fails prop (filter.objectsIn group front) := fun hf => h (hf.nonNumeric hprop)
    obtain ⟨hsums, v, hv, hnum⟩ := hfails
    cases hval : getValue prop.1 obj with
    | none =>
      rw [(same_of_other (.inl hval) front).1] at hv
      exact absurd ⟨hsums, v, hv, hnum⟩ hnot
    | some val =>
      rw [fed_concat filter group front hval, List.map_append, List.map_replicate, mem_tail_concat, hnil] at hv
      cases hv with
      | inl hv => exact absurd ⟨hsums, v, hv, hnum⟩ hnot
      | inr hv =>
        obtain ⟨rfl, htimes⟩ := hv
        have hgroup : group ∈ filter.groupsOf obj := List.count_pos_iff.mp (by omega)
        exact ⟨prop, hprop, hsums, ⟨v, hval, hnum⟩, group, hgroup, htimes.imp_right And.left⟩
  · obtain ⟨prop, hprop, hsums, ⟨val, hval, hnum⟩, group, hgroup, htimes⟩ := hrefused
    refine ⟨group, prop, hprop, hsums, val, ?_, hnum⟩
    rw [fed_concat filter group front hval, List.map_append, List.map_replicate, mem_tail_concat, hnil]
    exact .inr ⟨rfl, htimes.imp_right fun hne => ⟨hne, List.count_pos_iff.mpr hgroup⟩⟩

theorem cellClaimed_iff {filter : MojDbAggregateFilter} {objs : List MojObject} {group : MojObject}
    {prop : MojString × AggregatePropInfo} {info : Option AggregateInfo}
    (h : Tracked filter.text prop (filter.objectsIn group objs) info) :
    filter.CellClaimed objs group prop info ↔
      Fits filter.text prop.2 (withValue prop.1 (filter.objectsIn group objs)) (filter.members group prop.1 objs) := by
  have hmem := @mem_fed_iff filter group prop.1 objs
  cases info with
  | none =>
    have hfed : withValue prop.1 (filter.objectsIn group objs) = [] := h
    have hobjs : filter.members group prop.1 objs = [] := by
      rw [List.eq_nil_iff_forall_not_mem]
      intro e he
      rw [← hmem, hfed] at he
      cases he
    rw [hfed, hobjs]
    exact ⟨fun _ => ⟨fun _ => rfl, fun _ => by decide, by simp, by simp⟩, fun _ => hobjs⟩
  | some info =>
    have htracks : Tracks filter.text prop.2 (withValue prop.1 (filter.objectsIn group objs)) info := h
    have hne : filter.members group prop.1 objs ≠ [] := by
      obtain ⟨e, he⟩ := List.exists_mem_of_ne_nil _ htracks.fed_ne
      exact List.ne_nil_of_mem ((hmem e).mp he)
    rw [CellClaimed, ← reports_iff htracks hmem]
    exact and_iff_right hne

/-- The claim after one more object. -/
theorem claimed_concat {filter : MojDbAggregateFilter} {front : List MojObject} {obj : MojObject}
    (h : filter.Claimed front) : filter.Claimed (front ++ [obj]) ↔ StepWell AddsExactly filter front obj := by
  unfold Claimed at h ⊢
  by_cases hfront : filter.NonNumeric front
  · -- the run has been stopped already
    refine ⟨fun _ hnot => absurd hfront hnot, fun _ => ?_⟩
    obtain ⟨groups, hrun, -⟩ | ⟨-, group, prop, hprop, hfails⟩ := filter.run_cases front
    · rw [hrun] at h
      exact absurd hfront h.1
    · obtain ⟨groups', hrun', -, hall⟩ | ⟨hrun', -⟩ := filter.run_cases (front ++ [obj])
      · exact absurd (hfails.append [obj]) (hall group prop hprop).1
      · rw [hrun']
        exact nonNumeric_append.mpr (.inl hfront)
  have hok : ∀ group, ∀ prop ∈ filter.aggregateProps,
      Fits filter.text prop.2 (withValue prop.1 (filter.objectsIn group front)) (filter.members group prop.1 front) := by
    intro group prop hprop
    obtain ⟨groups, hrun, -, hall⟩ | ⟨hrun, -⟩ := filter.run_cases front
    · rw [hrun] at h
      exact (cellClaimed_iff (hall group prop hprop).2).mp (h.2.2 group prop hprop)
    · rw [hrun] at h
      exact absurd h hfront
  by_cases hobj : filter.NonNumeric [obj]
  · have hboth : filter.NonNumeric (front ++ [obj]) := nonNumeric_append.mpr (.inr hobj)
    have hstep : StepWell AddsExactly filter front obj ↔ filter.Refused front obj :=
      ⟨fun hs => (hs hfront).1 hobj, fun hr _ => ⟨fun _ => hr, fun hnot => absurd hobj hnot⟩⟩
    rw [hstep, ← refused_iff hfront]
    obtain ⟨groups', hrun', -, hall⟩ | ⟨hrun', hfails⟩ := filter.run_cases (front ++ [obj])
    · rw [hrun']
      refine ⟨fun hc => absurd hboth hc.1, fun hf => ?_⟩
      obtain ⟨group, prop, hprop, hf⟩ := hf
      exact absurd hf (hall group prop hprop).1
    · rw [hrun']
      exact ⟨fun _ => hfails, fun _ => hboth⟩
  · have hboth : ¬ filter.NonNumeric (front ++ [obj]) := fun hn => (nonNumeric_append.mp hn).elim hfront hobj
    have hstep : StepWell AddsExactly filter front obj ↔ Joined AddsExactly filter front obj :=
      ⟨fun hs => (hs hfront).2 hobj, fun hj _ => ⟨fun hn => absurd hn hobj, fun _ => hj⟩⟩
    rw [hstep]
    obtain ⟨groups', hrun', hsome, hall⟩ | ⟨-, group, prop, hprop, hfails⟩ := filter.run_cases (front ++ [obj])
    · rw [hrun']
      refine ⟨fun hc prop hprop val hval group hgroup => ?_, fun hj => ⟨hboth, hsome, fun group prop hprop => ?_⟩⟩
      · have hfits := (cellClaimed_iff (hall group prop hprop).2).mp (hc.2.2 group prop hprop)
        rw [fed_concat filter group front hval, members_concat filter group front hval hgroup] at hfits
        exact (fits_concat_iff (hok group prop hprop) mem_fed_iff (List.count_pos_iff.mpr hgroup)).mp hfits
      · rw [cellClaimed_iff (hall group prop hprop).2]
        by_cases hother : getValue prop.1 obj = none ∨ group ∉ filter.groupsOf obj
        · rw [(same_of_other hother front).1, (same_of_other hother front).2]
          exact hok group prop hprop
        · obtain ⟨hsome, hgroup⟩ := not_or.mp hother
          obtain ⟨val, hval⟩ := Option.ne_none_iff_exists'.mp hsome
          rw [not_not] at hgroup
          rw [fed_concat filter group front hval, members_concat filter group front hval hgroup]
          exact (fits_concat_iff (hok group prop hprop) mem_fed_iff (List.count_pos_iff.mpr hgroup)).mpr
            (hj prop hprop val hval group hgroup)
    · exact absurd (hfails.nonNumeric hprop) hboth

/-! ## The multiset of objects -/

/-- The same error, or the same reported values. -/
structure SameReports (propInfo : AggregatePropInfo) (info info' : AggregateInfo) : Prop where
  count : has propInfo.op OpCount = true → info.count = info'.count
  sum : has propInfo.op OpSum = true → info.sum = info'.sum
  min : has propInfo.op OpMin = true → info.min = info'.min
  max : has propInfo.op OpMax = true → info.max = info'.max

def SameCell (propInfo : AggregatePropInfo) : Option AggregateInfo → Option AggregateInfo → Prop
  | none, none => True
  | some info, some info' => SameReports propInfo info info'
  | _, _ => False

def SameResult (filter : MojDbAggregateFilter) : Except MojErr GroupAggregateMap → Except MojErr GroupAggregateMap → Prop
  | .error err, .error err' => err = err'
  | .ok groups, .ok groups' => (∀ group, (groups group).isSome = (groups' group).isSome) ∧
      ∀ group, ∀ prop ∈ filter.aggregateProps, SameCell prop.2 (cell groups group prop.1) (cell groups' group prop.1)
  | _, _ => False

theorem Reports.same {text : MojDbText} {propInfo : AggregatePropInfo} {objs objs' : List (MojObject × MojObject)}
    {info info' : AggregateInfo} (hperm : objs.Perm objs') (h : Reports text propInfo objs info)
    (h' : Reports text propInfo objs' info') : SameReports propInfo info info' where
  count := fun hop => by rw [h.count hop, h'.count hop, hperm.length_eq]
  sum := fun hop => by
    have hrep : info.sum.rep.toInt = info'.sum.rep.toInt := by
      rw [h.sum hop, h'.sum hop, (hperm.map _).sum_eq]
    have heq : info.sum.rep = info'.sum.rep := Int64.toInt_inj.mp hrep
    exact congrArg MojDecimal.mk heq
  min := fun hop => by
    obtain ⟨e, he, hmin, hle, hall⟩ := h.min hop
    obtain ⟨e', he', hmin', hle', -⟩ := h'.min hop
    rw [hmin, hmin']
    exact (hall e' (hperm.mem_iff.mpr he') (le_antisymm (hle' e (hperm.mem_iff.mp he)) (hle e' (hperm.mem_iff.mpr he')))).symm
  max := fun hop => by
    obtain ⟨e, he, hmax, hle, hall⟩ := h.max hop
    obtain ⟨e', he', hmax', hle', -⟩ := h'.max hop
    rw [hmax, hmax']
    exact (hall e' (hperm.mem_iff.mpr he') (le_antisymm (hle e' (hperm.mem_iff.mpr he')) (hle' e (hperm.mem_iff.mp he)))).symm

theorem nonNumeric_perm {filter : MojDbAggregateFilter} {objs objs' : List MojObject} (hperm : objs.Perm objs') :
    filter.NonNumeric objs ↔ filter.NonNumeric objs' :=
  exists_congr fun _ => and_congr_left fun _ => hperm.mem_iff

theorem members_perm {filter : MojDbAggregateFilter} {objs objs' : List MojObject} (hperm : objs.Perm objs')
    (group : MojObject) (propName : MojString) :
    (filter.members group propName objs).Perm (filter.members group propName objs') := (hperm.filter _).filterMap _

/-- Where the claim holds, the order of the objects does not tell. -/
theorem sameResult_of_perm {filter : MojDbAggregateFilter} {objs objs' : List MojObject} (hperm : objs.Perm objs')
    (h : filter.Claimed objs) (h' : filter.Claimed objs') : filter.SameResult (filter.run objs) (filter.run objs') := by
  unfold Claimed at h h'
  obtain ⟨groups, hrun, hsome, -⟩ | ⟨hrun, -⟩ := filter.run_cases objs <;>
  obtain ⟨groups', hrun', hsome', -⟩ | ⟨hrun', -⟩ := filter.run_cases objs' <;>
  rw [hrun] at h ⊢ <;> rw [hrun'] at h' ⊢
  · refine ⟨fun group => ?_, fun group prop hprop => ?_⟩
    · rw [Bool.eq_iff_iff, hsome, hsome']
      exact exists_congr fun obj => and_congr_left fun _ => hperm.mem_iff
    · have hcell := h.2.2 group prop hprop
      have hcell' := h'.2.2 group prop hprop
      have hmembers := @members_perm filter _ _ hperm group prop.1
      cases hc : cell groups group prop.1 with
      | none =>
        rw [hc] at hcell
        cases hc' : cell groups' group prop.1 with
        | none => trivial
        | some info' =>
          rw [hc'] at hcell'
          have hnil : filter.members group prop.1 objs = [] := hcell
          rw [hnil] at hmembers
          exact hcell'.1 (List.nil_perm.mp hmembers)
      | some info =>
        rw [hc] at hcell
        cases hc' : cell groups' group prop.1 with
        | none =>
          rw [hc'] at hcell'
          have hnil : filter.members group prop.1 objs' = [] := hcell'
          rw [hnil] at hmembers
          exact hcell.1 (List.perm_nil.mp hmembers)
        | some info' =>
          rw [hc'] at hcell'
          exact Reports.same hmembers hcell.2 hcell'.2
  · exact absurd ((nonNumeric_perm hperm).mpr h') h.1
  · exact absurd ((nonNumeric_perm hperm).mp h) h'.1
  · rfl

/-- `total`. -/
def totalName : MojString := ⟨[116, 111, 116, 97, 108], by decide⟩

/-- A sum of `total`. -/
def sumFilter : MojDbAggregateFilter where
  text := ⟨fun _ s => s, fun s => [s]⟩
  aggregateProps := [(totalName, ⟨OpSum, none, by decide⟩)]
  groupByProp := none
  props_nodup := by simp

/-- `{"total":null}`. -/
def nullTotal : MojObject := .object [(totalName, .null)]

end MojDbAggregateFilter

end Db8
