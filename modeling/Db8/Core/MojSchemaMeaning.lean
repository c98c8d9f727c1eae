import Db8.Core.MojSchema
import Db8.Lib.Fallible

/-!
# Core.MojSchemaMeaning

What a schema asks of a value, and which documents are read as schemas.

* `Regular`         — a value whose integers have their millionths in 64 bits.
* `Satisfies`       — the meaning of a schema, keyword by keyword, without rules and without an order.
* `SubSchema`       — a schema in a schema.
* `NumbersFit`      — a schema whose numbers can be kept as the rules keep them.
* `fromObject_iff`  — a document is read just when the names of types and the patterns in all its schemas are known.
-/

namespace Db8

open Lib MojObject

namespace MojSchema

/-! ## Levels of a value -/

theorem visit_pos (o : MojObject) : 0 < o.visit.length := by
  cases o <;> simp [visit]

theorem length_visit_lt_of_mem_props {o : MojObject} {p : MojString × MojObject} (h : p ∈ o.props) :
    p.2.visit.length < o.visit.length := by
  cases o with
  | object ps =>
    have hmem : (Visit.propName p.1 :: p.2.visit) ∈ ps.map fun p => Visit.propName p.1 :: p.2.visit := List.mem_map_of_mem h
    have hle : (Visit.propName p.1 :: p.2.visit).length ≤ (visitProps ps).length := by
      rw [visitProps_eq_flatMap, List.flatMap_def]
      exact (List.sublist_flatten_of_mem hmem).length_le
    rw [List.length_cons] at hle
    rw [visit, List.length_cons, List.length_append]
    omega
  | _ => cases h

theorem length_visit_lt_of_mem_elements {o x : MojObject} (h : x ∈ elements o) : x.visit.length < o.visit.length := by
  cases o with
  | array xs =>
    have hmem : x.visit ∈ xs.map visit := List.mem_map_of_mem h
    have hle : x.visit.length ≤ (visitVec xs).length := by
      rw [visitVec_eq_flatMap, List.flatMap_def]
      exact (List.sublist_flatten_of_mem hmem).length_le
    rw [visit, List.length_cons, List.length_append]
    omega
  | _ => cases h

theorem mem_of_getProp {key : MojString} {val : MojObject} {ps : List (MojString × MojObject)} (h : getProp key ps = some val) :
    (key, val) ∈ ps := by
  induction ps with
  | nil => cases h
  | cons p ps ih =>
    rw [getProp] at h
    split_ifs at h with hk
    · obtain rfl := Option.some.inj h
      exact hk ▸ List.mem_cons_self
    · exact List.mem_cons_of_mem p (ih h)

theorem length_visit_lt_of_get {o : MojObject} {key : MojString} {val : MojObject} (h : o.get key = some val) :
    val.visit.length < o.visit.length := by
  rw [get_eq_getProp] at h
  exact length_visit_lt_of_mem_props (mem_of_getProp h)

/-- The property maps of a value are in order, and the millionths of its integers have a place in 64 bits. -/
structure Regular (o : MojObject) : Prop where
  ordered : o.isOrdered = true
  ints : ∀ i, Visit.intValue i ∈ o.visit → |i.toInt| ≤ 9223372036854

namespace Regular

variable {o x : MojObject}

theorem of_mem_props (h : Regular o) {p : MojString × MojObject} (hp : p ∈ o.props) : Regular p.2 where
  ordered := (isOrderedProps_iff.mp (isOrderedProps_props h.ordered)).1 p hp
  ints i hi := by
    refine h.ints i ?_
    cases o with
    | object ps =>
      have hmem : Visit.intValue i ∈ visitProps ps := by
        rw [visitProps_eq_flatMap]
        exact List.mem_flatMap.mpr ⟨p, hp, List.mem_cons_of_mem _ hi⟩
      exact List.mem_cons_of_mem _ (List.mem_append_left _ hmem)
    | _ => cases hp

theorem of_mem_elements (h : Regular o) (hx : x ∈ elements o) : Regular x := by
  cases o with
  | array xs =>
    refine ⟨isOrderedVec_iff.mp h.ordered x hx, fun i hi => h.ints i ?_⟩
    have hmem : Visit.intValue i ∈ visitVec xs := by
      rw [visitVec_eq_flatMap]
      exact List.mem_flatMap.mpr ⟨x, hx, hi⟩
    exact List.mem_cons_of_mem _ (List.mem_append_left _ hmem)
  | _ => cases hx

/-- The millionths of a regular number are kept. -/
theorem units_lt (h : Regular o) (hnumber : isNumber o = true) (strToDouble : MojString → ℚ) :
    -(2 ^ 63) ≤ units strToDouble o ∧ units strToDouble o < 2 ^ 63 := by
  cases o with
  | int i =>
    obtain ⟨hlow, hhigh⟩ := abs_le.mp (h.ints i (List.mem_singleton_self _))
    change -(2 ^ 63) ≤ i.toInt * 1000000 ∧ i.toInt * 1000000 < 2 ^ 63
    omega
  | decimal d => exact ⟨d.rep.le_toInt, d.rep.toInt_lt⟩
  | _ => cases hnumber

/-- The part before the point is far from the least number. -/
theorem intValue_ne_minValue (h : Regular o) (hnumber : isNumber o = true) : o.intValue ≠ Int64.minValue := by
  intro hmin
  have hunits := (h.units_lt hnumber fun _ => 0).1
  have hwhole := intValue_toInt (fun _ => 0) hnumber
  have habs : ((units (fun _ => 0) o).tdiv 1000000).natAbs = (units (fun _ => 0) o).natAbs / 1000000 := Int.natAbs_tdiv _ _
  have hhigh := (h.units_lt hnumber fun _ => 0).2
  rw [hmin, Int64.toInt_minValue] at hwhole
  omega

end Regular

/-! ## The meaning of a schema -/

/-- One of the types that the name stands for. -/
def Named (name val : MojObject) : Prop := ∃ ts, types.lookup name.stringValue.chars = some ts ∧ val.type ∈ ts

def canEqual (schema : MojObject) (key : MojString) : Bool := ((schema.get key).map boolValue).getD true

/-- What the keywords ask that have no schemas in them. Numbers are compared in millionths, of which an integer has any
number. -/
structure Plain (ext : Externals) (schema val parent : MojObject) : Prop where
  pattern : ∀ p, schema.get PatternKey = some p → ∃ regexp, ext.regex p.stringValue = .ok regexp ∧ regexp val.stringValue = true
  requires : ∀ r, schema.get RequiresKey = some r → ∃ v, parent.get r.stringValue = some v
  minimum : ∀ bound, schema.get MinimumKey = some bound → isNumber val = true →
    InBound false (canEqual schema MinimumCanEqualKey) (units ext.strToDouble val) (units ext.strToDouble bound)
  maximum : ∀ bound, schema.get MaximumKey = some bound → isNumber val = true →
    InBound true (canEqual schema MaximumCanEqualKey) (units ext.strToDouble val) (units ext.strToDouble bound)
  minItems : ∀ n xs, schema.get MinItemsKey = some n → val = .array xs → units ext.strToDouble n ≤ xs.length * 1000000
  maxItems : ∀ n xs, schema.get MaxItemsKey = some n → val = .array xs → xs.length * 1000000 ≤ units ext.strToDouble n
  uniqueItems : ∀ u xs, schema.get UniqueItemsKey = some u → u.boolValue = true → val = .array xs → xs.Nodup
  minLength : ∀ n s, schema.get MinLengthKey = some n → val = .string s → units ext.strToDouble n ≤ s.chars.length * 1000000
  maxLength : ∀ n s, schema.get MaxLengthKey = some n → val = .string s → s.chars.length * 1000000 ≤ units ext.strToDouble n
  enum : ∀ e, schema.get EnumKey = some e → val ∈ elements e
  divisibleBy : ∀ d, schema.get DivisibleByKey = some d → isNumber val = true →
    units ext.strToDouble d ∣ units ext.strToDouble val

/-- The schema of a property that is named under `properties`. -/
def declared (schema : MojObject) (key : MojString) : Option MojObject := (schema.get PropertiesKey).bind (·.get key)

theorem length_visit_lt_of_declared {schema s : MojObject} {key : MojString} (h : declared schema key = some s) :
    s.visit.length < schema.visit.length := by
  obtain ⟨ps, hps, hs⟩ := Option.bind_eq_some_iff.mp h
  exact (length_visit_lt_of_get hs).trans (length_visit_lt_of_get hps)

mutual
/-- The value, which is in the parent, is as the schema says. -/
def Satisfies (ext : Externals) (schema val parent : MojObject) : Prop :=
  (∀ key s, declared schema key = some s → (∀ v, val.get key = some v → Satisfies ext s v val) ∧
      (val.get key = none → optionalOf s = true)) ∧
    (∀ a, schema.get AdditionalPropertiesKey = some a → ∀ key v, val.get key = some v → declared schema key = none →
      Additional ext a v val) ∧
    (∀ t, schema.get TypeKey = some t → OfType ext t val parent) ∧
    (∀ t, schema.get DisallowKey = some t → ¬OfType ext t val parent) ∧
    (∀ t, schema.get ItemsKey = some t → t.type ≠ .typeArray → ∀ x ∈ elements val, Satisfies ext t x val) ∧
    (∀ t, schema.get ItemsKey = some t → t.type = .typeArray → val.type = .typeArray →
      (∀ (i : Nat) s, (elements t)[i]? = some s → ∃ x, (elements val)[i]? = some x ∧ Alternative ext s x val) ∧
        ∀ a, schema.get AdditionalPropertiesKey = some a → ∀ x ∈ (elements val).drop (elements t).length,
          Additional ext a x val) ∧
    Plain ext schema val parent
  termination_by (schema.visit.length, 0)
  decreasing_by
    · exact Prod.Lex.left _ _ (length_visit_lt_of_declared (by assumption))
    all_goals first
      | exact Prod.Lex.left _ _ (length_visit_lt_of_get (by assumption))
      | exact Prod.Lex.left _ _ ((length_visit_lt_of_mem_elements (List.mem_of_getElem? (by assumption))).trans
          (length_visit_lt_of_get (by assumption)))

/-- The name of a type, or a schema. -/
def Alternative (ext : Externals) (s val parent : MojObject) : Prop :=
  if s.type = .typeString then Named s val else Satisfies ext s val parent
  termination_by (s.visit.length, 1)

/-- What `additionalProperties` says of a property or an item. -/
def Additional (ext : Externals) (a val parent : MojObject) : Prop :=
  if a.type = .typeBool then a.boolValue = true else Satisfies ext a val parent
  termination_by (a.visit.length, 1)

/-- The value of `type` or `disallow`: a name or some alternatives. -/
def OfType (ext : Externals) (t val parent : MojObject) : Prop :=
  if t.type = .typeArray then ∃ (s : MojObject) (_ : s ∈ elements t), Alternative ext s val parent else Named t val
  termination_by (t.visit.length, 0)
  decreasing_by exact Prod.Lex.left _ _ (length_visit_lt_of_mem_elements (by assumption))
end

/-! ## Schemas in a schema -/

/-- The second schema is a part of the first one. -/
inductive Part (schema : MojObject) : MojObject → Prop
  | property {ps p} (h : schema.get PropertiesKey = some ps) (hp : p ∈ ps.props) : Part schema p.2
  | additional {a} (h : schema.get AdditionalPropertiesKey = some a) (htype : a.type ≠ .typeBool) : Part schema a
  | alternative {key t s} (hkey : key = TypeKey ∨ key = DisallowKey ∨ key = ItemsKey) (h : schema.get key = some t)
    (htype : t.type = .typeArray) (hs : s ∈ elements t) (hschema : s.type ≠ .typeString) : Part schema s
  | items {t} (h : schema.get ItemsKey = some t) (htype : t.type ≠ .typeArray) : Part schema t

def SubSchema : MojObject → MojObject → Prop := Relation.ReflTransGen Part

/-- The name stands for a type. -/
def IsName (name : MojObject) : Prop := Returns (SimpleTypeRule.fromObject name)

/-- The names of types and the pattern that a schema has outside of its parts. -/
structure Known (ext : Externals) (schema : MojObject) : Prop where
  name : ∀ key t, key = TypeKey ∨ key = DisallowKey → schema.get key = some t → t.type ≠ .typeArray → IsName t
  alternative : ∀ key t s, key = TypeKey ∨ key = DisallowKey ∨ key = ItemsKey → schema.get key = some t →
    t.type = .typeArray → s ∈ elements t → s.type = .typeString → IsName s
  pattern : ∀ p, schema.get PatternKey = some p → Returns (ext.regex p.stringValue)

/-- The bounds of a schema are numbers whose millionths have a place in 64 bits, its lengths are whole numbers, and so is
its divisor, which is not zero. -/
structure NumbersFit (ext : Externals) (schema : MojObject) : Prop where
  bound : ∀ key b, key = MinimumKey ∨ key = MaximumKey → schema.get key = some b →
    isNumber b = true ∧ |units ext.strToDouble b| < 2 ^ 63
  length : ∀ key n, key = MinItemsKey ∨ key = MaxItemsKey ∨ key = MinLengthKey ∨ key = MaxLengthKey →
    schema.get key = some n → isNumber n = true ∧ 1000000 ∣ units ext.strToDouble n
  divisor : ∀ d, schema.get DivisibleByKey = some d →
    isNumber d = true ∧ 1000000 ∣ units ext.strToDouble d ∧ units ext.strToDouble d ≠ 0

theorem forall_subSchema {schema : MojObject} {P : MojObject → Prop} :
    (∀ s, SubSchema schema s → P s) ↔ P schema ∧ ∀ part, Part schema part → ∀ s, SubSchema part s → P s := by
  constructor
  · intro h
    exact ⟨h schema .refl, fun part hpart s hs => h s (.head hpart hs)⟩
  · intro h s hs
    cases Relation.ReflTransGen.cases_head hs with
    | inl heq => exact heq ▸ h.1
    | inr hstep =>
      obtain ⟨part, hpart, hs⟩ := hstep
      exact h.2 part hpart s hs

section FromObject

variable {ext : Externals} {schemaRule : MojObject → Except Error Rule} {obj : MojObject}

theorem returns_addRule {key : MojString} {fromObject : MojObject → Except Error Rule} :
    Returns (addRule obj key fromObject) ↔ ∀ val, obj.get key = some val → Returns (fromObject val) := by
  unfold addRule
  cases obj.get key with
  | none => exact iff_of_true (returns_ok _) fun _ h => by cases h
  | some val =>
    rw [returns_map]
    exact ⟨fun h _ hval => Option.some.inj hval ▸ h, fun h => h val rfl⟩

theorem returns_union {t : MojObject} : Returns (UnionTypeRule.fromObject schemaRule t) ↔
    ∀ s ∈ elements t, (s.type = .typeString → IsName s) ∧ (s.type ≠ .typeString → Returns (schemaRule s)) := by
  rw [UnionTypeRule.fromObject, returns_mapM]
  refine forall₂_congr fun s _ => ?_
  split_ifs with hstring
  · rw [returns_map]
    exact ⟨fun h => ⟨fun _ => h, fun hne => absurd hstring hne⟩, fun h => h.1 hstring⟩
  · exact ⟨fun h => ⟨fun he => absurd he hstring, fun _ => h⟩, fun h => h.2 hstring⟩

theorem returns_additional {a : MojObject} : Returns (AdditionalPropertiesRule.fromObject schemaRule a) ↔
    (a.type ≠ .typeBool → Returns (schemaRule a)) := by
  unfold AdditionalPropertiesRule.fromObject
  split_ifs with hbool
  · exact iff_of_true (returns_ok _) fun hne => absurd hbool hne
  · rw [returns_map]
    exact ⟨fun h _ => h, fun h => h hbool⟩

theorem returns_properties {ps : MojObject} : Returns (PropertiesRule.fromObject schemaRule ps) ↔
    ∀ p ∈ ps.props, Returns (schemaRule p.2) := by
  rw [PropertiesRule.fromObject, returns_mapM]
  exact forall₂_congr fun p _ => returns_map

theorem returns_pattern {p : MojObject} : Returns (PatternRule.fromObject ext p) ↔ Returns (ext.regex p.stringValue) := by
  unfold PatternRule.fromObject
  cases ext.regex p.stringValue with
  | error what => exact iff_of_false (not_returns_error _) (not_returns_error _)
  | ok regexp => exact iff_of_true (returns_ok _) (returns_ok _)

/-- Of the rules without other schemas only the pattern can throw. -/
theorem returns_plainRules : Returns (plainRules ext obj) ↔ ∀ p, obj.get PatternKey = some p → Returns (ext.regex p.stringValue) := by
  have hadd : ∀ (key : MojString) (f : MojObject → Rule), Returns (addRule obj key fun val => .ok (f val)) := fun key f =>
    returns_addRule.mpr fun val _ => returns_ok (f val)
  have hpattern : Returns (addRule obj PatternKey (PatternRule.fromObject ext)) ↔
      ∀ p, obj.get PatternKey = some p → Returns (ext.regex p.stringValue) :=
    returns_addRule.trans (forall₂_congr fun p _ => returns_pattern)
  rw [plainRules]
  refine (returns_bind hpattern fun pattern _ => iff_of_true ?_ trivial).trans (and_iff_left trivial)
  iterate 9 refine Returns.bind (hadd _ _) fun _ => ?_
  exact returns_ok _

theorem returns_additionalRule : Returns (additionalRule schemaRule obj) ↔
    ∀ a, obj.get AdditionalPropertiesKey = some a → a.type ≠ .typeBool → Returns (schemaRule a) := by
  unfold additionalRule
  cases obj.get AdditionalPropertiesKey with
  | none => exact iff_of_true (returns_ok _) fun _ h => by cases h
  | some a =>
    dsimp only
    rw [returns_map, returns_additional]
    exact ⟨fun h _ ha => Option.some.inj ha ▸ h, fun h => h a rfl⟩

theorem returns_propertiesRule {additional : Option Rule} : Returns (propertiesRule schemaRule obj additional) ↔
    ∀ ps, obj.get PropertiesKey = some ps → ∀ p ∈ ps.props, Returns (schemaRule p.2) := by
  unfold propertiesRule
  cases hget : obj.get PropertiesKey with
  | none =>
    refine iff_of_true ?_ fun _ h => by cases h
    split_ifs
    · exact returns_ok _
    · exact returns_ok _
  | some ps =>
    rw [Option.isSome_some, Bool.true_or, if_pos rfl, returns_map, returns_properties]
    exact ⟨fun h _ hps => Option.some.inj hps ▸ h, fun h => h ps rfl⟩

theorem returns_typeRule {simple : List MojObjectType → Rule} {union : List Rule → Rule} {t : MojObject} :
    Returns (typeRule schemaRule simple union t) ↔ (t.type ≠ .typeArray → IsName t) ∧ (t.type = .typeArray → ∀ s ∈ elements t,
      (s.type = .typeString → IsName s) ∧ (s.type ≠ .typeString → Returns (schemaRule s))) := by
  unfold typeRule
  split_ifs with harray
  · rw [returns_map, returns_union]
    exact ⟨fun h => ⟨fun hne => absurd harray hne, fun _ => h⟩, fun h => h.2 harray⟩
  · rw [returns_map]
    exact ⟨fun h => ⟨fun _ => h, fun he => absurd he harray⟩, fun h => h.1 harray⟩

theorem returns_itemsRule {additional : Option Rule} {t : MojObject} :
    Returns (itemsRule schemaRule additional t) ↔ (t.type ≠ .typeArray → Returns (schemaRule t)) ∧
      (t.type = .typeArray → ∀ s ∈ elements t,
        (s.type = .typeString → IsName s) ∧ (s.type ≠ .typeString → Returns (schemaRule s))) := by
  unfold itemsRule
  split_ifs with harray
  · rw [returns_map, returns_union]
    exact ⟨fun h => ⟨fun hne => absurd harray hne, fun _ => h⟩, fun h => h.2 harray⟩
  · rw [returns_map]
    exact ⟨fun h => ⟨fun _ => h, fun he => absurd he harray⟩, fun h => h.1 harray⟩

/-- The rules of one level: its names and its pattern are known, and the schemas in it can be read. -/
theorem returns_fromObject_succ {fuel : Nat} : Returns (SchemaRule.fromObject ext (fuel + 1) obj) ↔
    Known ext obj ∧ ∀ part, Part obj part → Returns (SchemaRule.fromObject ext fuel part) := by
  have htype : ∀ (key : MojString) (simple : List MojObjectType → Rule) (union : List Rule → Rule),
      Returns (addRule obj key (typeRule (SchemaRule.fromObject ext fuel) simple union)) ↔ _ := fun key simple union =>
    returns_addRule.trans (forall₂_congr fun t _ => returns_typeRule)
  rw [SchemaRule.fromObject]
  refine (returns_bind returns_additionalRule fun additional _ => returns_bind returns_propertiesRule fun _ _ =>
    returns_bind (htype TypeKey _ _) fun _ _ => returns_bind (htype DisallowKey _ _) fun _ _ =>
    returns_bind (returns_addRule.trans (forall₂_congr fun t _ => returns_itemsRule)) fun _ _ =>
    returns_bind returns_plainRules fun _ _ => iff_of_true (returns_ok _) trivial).trans ?_
  constructor
  · intro h
    obtain ⟨hadditional, hproperties, htype, hdisallow, hitems, hpattern, -⟩ := h
    refine ⟨⟨fun key t hkey hget hne => ?_, fun key t s hkey hget harray hs hstring => ?_, hpattern⟩, fun part hpart => ?_⟩
    · cases hkey with
      | inl hkey => exact (htype t (hkey ▸ hget)).1 hne
      | inr hkey => exact (hdisallow t (hkey ▸ hget)).1 hne
    · obtain rfl | rfl | rfl := hkey
      · exact ((htype t hget).2 harray s hs).1 hstring
      · exact ((hdisallow t hget).2 harray s hs).1 hstring
      · exact ((hitems t hget).2 harray s hs).1 hstring
    · cases hpart with
      | property hps hp => exact hproperties _ hps _ hp
      | additional ha hne => exact hadditional _ ha hne
      | alternative hkey hget harray hs hschema =>
        obtain rfl | rfl | rfl := hkey
        · exact ((htype _ hget).2 harray _ hs).2 hschema
        · exact ((hdisallow _ hget).2 harray _ hs).2 hschema
        · exact ((hitems _ hget).2 harray _ hs).2 hschema
      | items hget hne => exact (hitems _ hget).1 hne
  · intro h
    obtain ⟨hknown, hparts⟩ := h
    refine ⟨fun a ha hne => hparts a (.additional ha hne), fun ps hps p hp => hparts p.2 (.property hps hp), fun t ht => ?_,
      fun t ht => ?_, fun t ht => ?_, hknown.pattern, trivial⟩
    · exact ⟨hknown.name TypeKey t (.inl rfl) ht, fun harray s hs => ⟨hknown.alternative TypeKey t s (.inl rfl) ht harray hs,
        fun hschema => hparts s (.alternative (.inl rfl) ht harray hs hschema)⟩⟩
    · exact ⟨hknown.name DisallowKey t (.inr rfl) ht, fun harray s hs =>
        ⟨hknown.alternative DisallowKey t s (.inr (.inl rfl)) ht harray hs,
          fun hschema => hparts s (.alternative (.inr (.inl rfl)) ht harray hs hschema)⟩⟩
    · exact ⟨fun hne => hparts t (.items ht hne), fun harray s hs =>
        ⟨hknown.alternative ItemsKey t s (.inr (.inr rfl)) ht harray hs,
          fun hschema => hparts s (.alternative (.inr (.inr rfl)) ht harray hs hschema)⟩⟩

theorem Part.length_visit_lt {part : MojObject} (h : Part obj part) : part.visit.length < obj.visit.length := by
  cases h with
  | property hps hp => exact (length_visit_lt_of_mem_props hp).trans (length_visit_lt_of_get hps)
  | additional ha _ => exact length_visit_lt_of_get ha
  | alternative _ hget _ hs _ => exact (length_visit_lt_of_mem_elements hs).trans (length_visit_lt_of_get hget)
  | items hget _ => exact length_visit_lt_of_get hget

theorem returns_schemaRule {fuel : Nat} (hfuel : obj.visit.length ≤ fuel) :
    Returns (SchemaRule.fromObject ext fuel obj) ↔ ∀ s, SubSchema obj s → Known ext s := by
  induction fuel generalizing obj with
  | zero => exact absurd (visit_pos obj) (Nat.not_lt.mpr hfuel)
  | succ fuel ih =>
    rw [returns_fromObject_succ, forall_subSchema]
    refine and_congr_right fun _ => forall₂_congr fun part hpart => ih ?_
    have hlt := hpart.length_visit_lt
    omega

/-- **A document is read** just when the names of types and the patterns in all its schemas are known. -/
theorem fromObject_iff : (∃ rule, fromObject ext obj = .ok rule) ↔ ∀ s, SubSchema obj s → Known ext s :=
  returns_schemaRule (Nat.le_refl _)

end FromObject

end MojSchema

end Db8
