import Db8.Core.MojErr
import Db8.Core.MojString
import Db8.Db.MojDbKey

/-!
# Db.MojDbExtractor

The key parts an index takes from an object for one of its properties.

* `MojDbPropExtractor.handleVal` — the walk along the property path: wildcards, arrays, defaults.
* `MojDbExtractor.vals`          — the set of parts, for a single path or for several.
* `vals_coded`                   — every part is the serialization of some value.
-/

namespace Db8

open Lib

namespace MojDb

/-- `_id`. -/
def IdKey : MojString := ⟨[95, 105, 100], by decide⟩
/-- `_kind`. -/
def KindKey : MojString := ⟨[95, 107, 105, 110, 100], by decide⟩
/-- `_rev`. -/
def RevKey : MojString := ⟨[95, 114, 101, 118], by decide⟩
/-- `_del`. -/
def DelKey : MojString := ⟨[95, 100, 101, 108], by decide⟩

end MojDb

namespace MojObject

/-- The deleted flag of a stored object. -/
def isDeleted (obj : MojObject) : Bool :=
  match obj.get MojDb.DelKey with
  | none => false
  | some del => del.boolValue

end MojObject

namespace MojDbPropExtractor

/-- `.` -/
def PropComponentSeparator : MojByte := 46

/-- `*` -/
def WildcardKey : MojString := ⟨[42], by decide⟩

end MojDbPropExtractor

structure MojDbPropExtractor where
  name : MojString
  collation : Option MojDbCollationStrength
  tokenizer : Bool
  /-- The parts an object without the property gets. -/
  default : KeySet
  prop_ne_nil : name.split MojDbPropExtractor.PropComponentSeparator ≠ []
  /-- Each default is the serialization of a value. -/
  default_coded : ∀ part ∈ default, ∃ o : MojObject, part = o.toBytes

namespace MojDbPropExtractor

/-- No default: an object without the property gets no part. -/
theorem empty_coded : ∀ part ∈ (SortedSet.empty : KeySet), ∃ o : MojObject, part = o.toBytes :=
  fun part h => absurd h (SortedSet.not_mem_empty part)

/-- The components of the property path. -/
def prop (e : MojDbPropExtractor) : List MojString := e.name.split PropComponentSeparator

/-- The parts of a value at the end of the path. -/
def lastVals (text : MojDbText) (e : MojDbPropExtractor) (val : MojObject) : List MojDbKey :=
  match val with
  | .string s =>
    if e.tokenizer then (text.words s).map fun w => MojDbKey.assign text e.collation (.string w)
    else [MojDbKey.assign text e.collation val]
  | _ => [MojDbKey.assign text e.collation val]

/-- `handleVal` on a value with the rest of the path before it: at the end of the path the value is
used itself, otherwise `valsImpl` goes on. Under a wildcard every property is taken as it stands; a
named property that holds an array is taken element by element. -/
def handleVal (text : MojDbText) (e : MojDbPropExtractor) : List MojString → MojObject → List MojDbKey
  | [], val => lastVals text e val
  | propKey :: rest, obj =>
    if propKey = WildcardKey then obj.props.flatMap fun p => handleVal text e rest p.2
    else
      match obj.get propKey with
      | none => e.default.elems
      | some (.array vec) => vec.flatMap (handleVal text e rest)
      | some val => handleVal text e rest val

def vals (text : MojDbText) (e : MojDbPropExtractor) (obj : MojObject) : KeySet :=
  .ofList (handleVal text e e.prop obj)

end MojDbPropExtractor

inductive MojDbExtractor where
  | prop (extractor : MojDbPropExtractor)
  | multi (name : MojString) (collation : Option MojDbCollationStrength)
      (extractors : List MojDbPropExtractor)

namespace MojDbExtractor

def name : MojDbExtractor → MojString
  | .prop e => e.name
  | .multi name _ _ => name

def collation : MojDbExtractor → Option MojDbCollationStrength
  | .prop e => e.collation
  | .multi _ collation _ => collation

def vals (text : MojDbText) (obj : MojObject) : MojDbExtractor → KeySet
  | .prop e => e.vals text obj
  | .multi _ _ extractors => .ofList (extractors.flatMap fun e => (e.vals text obj).elems)

/-! ## Every part is the serialization of a value -/

theorem lastVals_coded {text : MojDbText} {e : MojDbPropExtractor} {val : MojObject} {part : MojDbKey}
    (h : part ∈ e.lastVals text val) : ∃ o : MojObject, part = o.toBytes := by
  cases val with
  | string s =>
    simp only [MojDbPropExtractor.lastVals] at h
    split_ifs at h
    · obtain ⟨w, -, rfl⟩ := List.mem_map.mp h
      exact ⟨_, rfl⟩
    · exact ⟨_, List.mem_singleton.mp h⟩
  | _ => exact ⟨_, List.mem_singleton.mp h⟩

/-- By induction on the rest of the path. -/
theorem handleVal_coded {text : MojDbText} {e : MojDbPropExtractor} {path : List MojString}
    {val : MojObject} {part : MojDbKey} (h : part ∈ e.handleVal text path val) :
    ∃ o : MojObject, part = o.toBytes := by
  induction path generalizing val with
  | nil => exact lastVals_coded h
  | cons propKey rest ih =>
    simp only [MojDbPropExtractor.handleVal] at h
    split_ifs at h
    · obtain ⟨p, -, hmem⟩ := List.mem_flatMap.mp h
      exact ih hmem
    · split at h
      · exact e.default_coded part h
      · obtain ⟨x, -, hmem⟩ := List.mem_flatMap.mp h
        exact ih hmem
      · exact ih h

theorem vals_coded {text : MojDbText} {obj : MojObject} {e : MojDbExtractor} {part : MojDbKey}
    (h : part ∈ e.vals text obj) : ∃ o : MojObject, part = o.toBytes := by
  cases e with
  | prop e => exact handleVal_coded (SortedSet.mem_ofList.mp h)
  | multi name collation extractors =>
    obtain ⟨e, -, hmem⟩ := List.mem_flatMap.mp (SortedSet.mem_ofList.mp h)
    exact handleVal_coded (SortedSet.mem_ofList.mp hmem)

end MojDbExtractor

end Db8
