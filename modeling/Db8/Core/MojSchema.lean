import Db8.Core.MojJson
import Db8.Core.MojObjectBuilder
import Db8.Core.MojSchemaRules
import Db8.Lib.Fallible

/-!
# Core.MojSchema

A schema: the rules that are made of a document, and the check of a value against them.

* `Rule`                 — the rules with what they keep of the document, nested as the schemas in it.
* `SchemaRule.fromObject` — the rules of a schema, in the order in which they are checked.
* `Check`                — what a rule does with a value: loops over rules, properties and items that end early.
* `Rule.validate`        — the check of each rule.
-/

namespace Db8

open Lib

namespace MojSchema

/-- `additionalProperties` -/
def AdditionalPropertiesKey : MojString :=
  ⟨[97, 100, 100, 105, 116, 105, 111, 110, 97, 108, 80, 114, 111, 112, 101, 114, 116, 105, 101, 115],
    by decide⟩
/-- `disallow` -/
def DisallowKey : MojString := ⟨[100, 105, 115, 97, 108, 108, 111, 119], by decide⟩
/-- `divisibleBy` -/
def DivisibleByKey : MojString := ⟨[100, 105, 118, 105, 115, 105, 98, 108, 101, 66, 121], by decide⟩
/-- `enum` -/
def EnumKey : MojString := ⟨[101, 110, 117, 109], by decide⟩
/-- `items` -/
def ItemsKey : MojString := ⟨[105, 116, 101, 109, 115], by decide⟩
/-- `minimum` -/
def MinimumKey : MojString := ⟨[109, 105, 110, 105, 109, 117, 109], by decide⟩
/-- `minimumCanEqual` -/
def MinimumCanEqualKey : MojString := ⟨[109, 105, 110, 105, 109, 117, 109, 67, 97, 110, 69, 113, 117, 97, 108], by decide⟩
/-- `minItems` -/
def MinItemsKey : MojString := ⟨[109, 105, 110, 73, 116, 101, 109, 115], by decide⟩
/-- `minLength` -/
def MinLengthKey : MojString := ⟨[109, 105, 110, 76, 101, 110, 103, 116, 104], by decide⟩
/-- `maximum` -/
def MaximumKey : MojString := ⟨[109, 97, 120, 105, 109, 117, 109], by decide⟩
/-- `maximumCanEqual` -/
def MaximumCanEqualKey : MojString := ⟨[109, 97, 120, 105, 109, 117, 109, 67, 97, 110, 69, 113, 117, 97, 108], by decide⟩
/-- `maxItems` -/
def MaxItemsKey : MojString := ⟨[109, 97, 120, 73, 116, 101, 109, 115], by decide⟩
/-- `maxLength` -/
def MaxLengthKey : MojString := ⟨[109, 97, 120, 76, 101, 110, 103, 116, 104], by decide⟩
/-- `optional` -/
def OptionalKey : MojString := ⟨[111, 112, 116, 105, 111, 110, 97, 108], by decide⟩
/-- `required` -/
def RequiredKey : MojString := ⟨[114, 101, 113, 117, 105, 114, 101, 100], by decide⟩
/-- `properties` -/
def PropertiesKey : MojString := ⟨[112, 114, 111, 112, 101, 114, 116, 105, 101, 115], by decide⟩
/-- `requires` -/
def RequiresKey : MojString := ⟨[114, 101, 113, 117, 105, 114, 101, 115], by decide⟩
/-- `type` -/
def TypeKey : MojString := .ofChars [116, 121, 112, 101]
/-- `uniqueItems` -/
def UniqueItemsKey : MojString := ⟨[117, 110, 105, 113, 117, 101, 73, 116, 101, 109, 115], by decide⟩
/-- `pattern` -/
def PatternKey : MojString := ⟨[112, 97, 116, 116, 101, 114, 110], by decide⟩

/-- What the rules take from elsewhere: the number in a text, and the texts that a regular expression matches. -/
structure Externals where
  strToDouble : MojString → ℚ
  regex : MojString → Except (List MojByte) (MojString → Bool)

inductive Error where
  | invalidSchema (msg : List MojByte)
  | json (msg : List MojByte)

/-! ## The rules of a document -/

/-- A `SchemaRule` keeps whether the property it is for may be missing. -/
inductive Rule where
  | schema (optional : Bool) (rules : List Rule)
  | simpleType (types : List MojObjectType)
  | unionType (rules : List Rule)
  | simpleDisallow (types : List MojObjectType)
  | unionDisallow (rules : List Rule)
  | additionalProperties (allowAdditional : Bool) (schemaRule : Option Rule)
  | properties (props : List (MojString × Rule)) (additionalRule : Option Rule)
  | simpleItems (schemaRule : Rule)
  | tupleItems (rules : List Rule) (additionalRule : Option Rule)
  | requires (requiredProp : MojString)
  | pattern (pattern : MojString) (regexp : MojString → Bool)
  | comp (rule : CompRule)
  | arrayLen (rule : ArrayLenRule)
  | uniqueItems
  | stringLen (rule : StringLenRule)
  | enum (vals : List MojObject)
  | divisible (rule : DivisibleRule)

/-- `SchemaRule::optional` -/
def Rule.optional : Rule → Bool
  | .schema optional _ => optional
  | _ => true

/-- The elements between `arrayBegin` and `arrayEnd`. -/
def elements : MojObject → List MojObject
  | .array vec => vec
  | _ => []

/-- The types that a name stands for. -/
def types : List (List MojByte × List MojObjectType) :=
  [(text "null", [.typeNull]), (text "object", [.typeObject]), (text "array", [.typeArray]), (text "string", [.typeString]),
    (text "boolean", [.typeBool]), (text "integer", [.typeInt]), (text "number", [.typeDecimal, .typeInt])]

/-- `SimpleTypeRule::fromObject` -/
def SimpleTypeRule.fromObject (obj : MojObject) : Except Error (List MojObjectType) :=
  match types.lookup obj.stringValue.chars with
  | some ts => .ok ts
  | none => .error (.invalidSchema (text "invalid schema: invalid type '" ++ obj.stringValue.chars ++ text "'"))

/-- `PatternRule::fromObject` -/
def PatternRule.fromObject (ext : Externals) (obj : MojObject) : Except Error Rule :=
  match ext.regex obj.stringValue with
  | .ok regexp => .ok (.pattern obj.stringValue regexp)
  | .error what =>
    .error (.json (text "invalid regex : " ++ obj.stringValue.chars ++ text ". Message : " ++ what))

section FromObject

variable (schemaRule : MojObject → Except Error Rule)

/-- `UnionTypeRule::fromObject` -/
def UnionTypeRule.fromObject (obj : MojObject) : Except Error (List Rule) :=
  (elements obj).mapM fun x => if x.type = .typeString then (SimpleTypeRule.fromObject x).map .simpleType else schemaRule x

/-- `AdditionalPropertiesRule::fromObject` -/
def AdditionalPropertiesRule.fromObject (obj : MojObject) : Except Error Rule :=
  if obj.type = .typeBool then .ok (.additionalProperties obj.boolValue none)
  else (schemaRule obj).map fun rule => .additionalProperties true (some rule)

/-- `PropertiesRule::fromObject` -/
def PropertiesRule.fromObject (obj : MojObject) : Except Error (List (MojString × Rule)) :=
  obj.props.mapM fun p => (schemaRule p.2).map (p.1, ·)

/-- The rule for `additionalProperties`, which those for `properties` and `items` share. -/
def additionalRule (obj : MojObject) : Except Error (Option Rule) :=
  match obj.get AdditionalPropertiesKey with
  | some val => (AdditionalPropertiesRule.fromObject schemaRule val).map some
  | none => .ok none

/-- A key that is not found leaves `undefined` for the properties, and there are none in it. -/
def propertiesRule (obj : MojObject) (additional : Option Rule) : Except Error (List Rule) :=
  if (obj.get PropertiesKey).isSome || additional.isSome then
    (PropertiesRule.fromObject schemaRule ((obj.get PropertiesKey).getD .undefined)).map fun props =>
      [.properties props additional]
  else .ok []

/-- The rules for `type` and `disallow`. -/
def typeRule (simple : List MojObjectType → Rule) (union : List Rule → Rule) (val : MojObject) : Except Error Rule :=
  if val.type = .typeArray then (UnionTypeRule.fromObject schemaRule val).map union
  else (SimpleTypeRule.fromObject val).map simple

def itemsRule (additional : Option Rule) (val : MojObject) : Except Error Rule :=
  if val.type = .typeArray then (UnionTypeRule.fromObject schemaRule val).map fun rules => .tupleItems rules additional
  else (schemaRule val).map .simpleItems

end FromObject

/-- Whether the property that a schema is for may be missing; `optional` comes before `required`. -/
def optionalOf (obj : MojObject) : Bool :=
  match obj.get OptionalKey with
  | some val => val.boolValue
  | none =>
    match obj.get RequiredKey with
    | some val => !val.boolValue
    | none => true

/-- A rule for a key that the schema has. -/
def addRule (obj : MojObject) (key : MojString) (fromObject : MojObject → Except Error Rule) : Except Error (List Rule) :=
  match obj.get key with
  | some val => (fromObject val).map fun rule => [rule]
  | none => .ok []

/-- `MinRule` or `MaxRule`, with the key that says whether the bound itself is allowed. -/
def compRule (ext : Externals) (obj : MojObject) (isMax : Bool) (canEqualKey : MojString) (val : MojObject) : Rule :=
  let rule := CompRule.fromObject ext.strToDouble isMax val
  match obj.get canEqualKey with
  | some canEqual => .comp { rule with canEqual := canEqual.boolValue }
  | none => .comp rule

/-- The rules behind those for `items`, none of which looks into another schema. -/
def plainRules (ext : Externals) (obj : MojObject) : Except Error (List Rule) := do
  let pattern ← addRule obj PatternKey (PatternRule.fromObject ext)
  let requires ← addRule obj RequiresKey fun val => .ok (.requires val.stringValue)
  let minimum ← addRule obj MinimumKey fun val => .ok (compRule ext obj false MinimumCanEqualKey val)
  let maximum ← addRule obj MaximumKey fun val => .ok (compRule ext obj true MaximumCanEqualKey val)
  let minItems ← addRule obj MinItemsKey fun val => .ok (.arrayLen (.fromObject false val))
  let maxItems ← addRule obj MaxItemsKey fun val => .ok (.arrayLen (.fromObject true val))
  let uniqueItems := if (obj.get UniqueItemsKey).any MojObject.boolValue then [Rule.uniqueItems] else []
  let minLength ← addRule obj MinLengthKey fun val => .ok (.stringLen (.fromObject false val))
  let maxLength ← addRule obj MaxLengthKey fun val => .ok (.stringLen (.fromObject true val))
  let enum ← addRule obj EnumKey fun val => .ok (.enum (elements val))
  let divisibleBy ← addRule obj DivisibleByKey fun val => .ok (.divisible (.fromObject val))
  return pattern ++ requires ++ minimum ++ maximum ++ minItems ++ maxItems ++ uniqueItems ++ minLength ++ maxLength ++ enum ++
    divisibleBy

/-- `SchemaRule::fromObject`, for schemas of no more levels than the fuel. -/
def SchemaRule.fromObject (ext : Externals) : Nat → MojObject → Except Error Rule
  | 0, _ => .ok (.schema true [])
  | fuel + 1, obj => do
    let schemaRule := SchemaRule.fromObject ext fuel
    let additional ← additionalRule schemaRule obj
    let properties ← propertiesRule schemaRule obj additional
    let type ← addRule obj TypeKey (typeRule schemaRule .simpleType .unionType)
    let disallow ← addRule obj DisallowKey (typeRule schemaRule .simpleDisallow .unionDisallow)
    let items ← addRule obj ItemsKey (itemsRule schemaRule additional)
    let plain ← plainRules ext obj
    return .schema (optionalOf obj) (properties ++ type ++ disallow ++ items ++ plain)

/-- `MojSchema::fromObject`. Each level of a value has a call of the visitor. -/
def fromObject (ext : Externals) (obj : MojObject) : Except Error Rule := SchemaRule.fromObject ext obj.visit.length obj

/-! ## Checks -/

/-- `Rule::validate`: a value, what it is in, and the result so far. -/
abbrev Check := MojObject → MojObject → Result → Except Trap Result

/-- `SchemaRule::validate` -/
def SchemaRule.validate : List Check → Check
  | [], _, _, res => .ok res
  | check :: checks, val, parent, res => do
    let res ← check val parent res
    if !res.valid then return res
    else SchemaRule.validate checks val parent res

/-- `SimpleTypeRule::validate` -/
def SimpleTypeRule.validate (types : List MojObjectType) : Check := fun val _ res =>
  if val.type ∈ types then .ok res else .ok (.fail "invalid type")

/-- `UnionTypeRule::validate` -/
def UnionTypeRule.validate : List Check → Check
  | [], _, _, res => .ok { res with valid := false }
  | check :: checks, val, parent, res => do
    let res ← check val parent { res with valid := true }
    if res.valid then return res
    else UnionTypeRule.validate checks val parent res

/-- `SimpleDisallowRule::validate` and `UnionDisallowRule::validate` -/
def DisallowRule.validate (check : Check) : Check := fun val parent res => do
  let typeRes ← check val parent ⟨true, []⟩
  if typeRes.valid then return .fail "type disallowed"
  else return res

/-- `AdditionalPropertiesRule::validate` -/
def AdditionalPropertiesRule.validate (allowAdditional : Bool) (schemaRule : Option Check) : Check := fun val parent res =>
  if !allowAdditional then .ok (.fail "property not allowed")
  else
    match schemaRule with
    | some check => check val parent res
    | none => .ok res

/-- A property of the schema, whether it may be missing, and the check of its value. -/
structure PropCheck where
  key : MojString
  optional : Bool
  check : Check

/-- A property that is in the value and not in the schema. -/
def PropertiesRule.extra (additionalRule : Option Check) (val : MojObject) (prop : MojString × MojObject) (res : Result) :
    Except Trap Result :=
  match additionalRule with
  | none => .ok res
  | some check => do
    let res ← check prop.2 val res
    if !res.valid then return { res with msg := res.msg ++ text " - '" ++ prop.1.chars ++ text "'" }
    else return res

/-- A property that is in the value and in the schema. -/
def PropertiesRule.shared (prop : PropCheck) (val propVal : MojObject) (res : Result) : Except Trap Result := do
  let res ← prop.check propVal val res
  if !res.valid then return { res with msg := res.msg ++ text " for property '" ++ prop.key.chars ++ text "'" }
  else return res

/-- A property that is in the schema and not in the value. -/
def PropertiesRule.missing (prop : PropCheck) (res : Result) : Result :=
  if prop.optional then res else ⟨false, text "required property not found - '" ++ prop.key.chars ++ text "'"⟩

/-- `PropertiesRule::validate`: both lists of properties are walked through in the order of their names. -/
def PropertiesRule.loop (additionalRule : Option Check) (val : MojObject) : List PropCheck → List (MojString × MojObject) →
    Result → Except Trap Result
  | [], [], res => .ok res
  | [], v :: vs, res => do
    let res ← extra additionalRule val v res
    if !res.valid then return res
    else loop additionalRule val [] vs res
  | p :: ps, [], res =>
    if !(missing p res).valid then .ok (missing p res)
    else loop additionalRule val ps [] (missing p res)
  | p :: ps, v :: vs, res =>
    match p.key.compare v.1 with
    | .gt => do
      let res ← extra additionalRule val v res
      if !res.valid then return res
      else loop additionalRule val (p :: ps) vs res
    | .lt =>
      if !(missing p res).valid then .ok (missing p res)
      else loop additionalRule val ps (v :: vs) (missing p res)
    | .eq => do
      let res ← shared p val v.2 res
      if !res.valid then return res
      else loop additionalRule val ps vs res
  termination_by ps vs => ps.length + vs.length

def PropertiesRule.validate (props : List PropCheck) (additionalRule : Option Check) : Check := fun val _ res =>
  loop additionalRule val props val.props res

/-- The loop of `SimpleItemsRule::validate`, and the last one of `TupleItemsRule::validate`. -/
def ItemsRule.loop (check : Check) (val : MojObject) : List MojObject → Result → Except Trap Result
  | [], res => .ok res
  | x :: xs, res => do
    let res ← check x val res
    if !res.valid then return res
    else loop check val xs res

/-- `SimpleItemsRule::validate` -/
def SimpleItemsRule.validate (check : Check) : Check := fun val _ res => ItemsRule.loop check val (elements val) res

def TupleItemsRule.loop (additionalRule : Option Check) (val : MojObject) : List Check → List MojObject → Result →
    Except Trap Result
  | check :: checks, x :: xs, res => do
    let res ← check x val res
    if !res.valid then return res
    else loop additionalRule val checks xs res
  | _ :: _, [], _ => .ok (.fail "too few items in array")
  | [], xs, res =>
    match additionalRule with
    | some check => ItemsRule.loop check val xs res
    | none => .ok res

/-- `TupleItemsRule::validate` -/
def TupleItemsRule.validate (checks : List Check) (additionalRule : Option Check) : Check := fun val _ res =>
  if val.type ≠ .typeArray then .ok res
  else loop additionalRule val checks (elements val) res

/-- `RequiresRule::validate` -/
def RequiresRule.validate (requiredProp : MojString) : Check := fun _ parent res =>
  if (parent.get requiredProp).isSome then .ok res
  else .ok ⟨false, text "required prop not found - '" ++ requiredProp.chars ++ text "'"⟩

/-- `PatternRule::validate` -/
def PatternRule.validate (pattern : MojString) (regexp : MojString → Bool) : Check := fun val _ res =>
  if regexp val.stringValue then .ok res
  else .ok ⟨false, text "pattern : '" ++ pattern.chars ++ text "' and value : '" ++ val.stringValue.chars ++ text "' do not match"⟩

/-- The outer loop of `UniqueItemsRule::validate`, which goes on behind duplicates. -/
def UniqueItemsRule.loop : List MojObject → Result → Result
  | [], res => res
  | x :: xs, res => loop xs (if x ∈ xs then .fail "duplicate items" else res)

/-- `UniqueItemsRule::validate` -/
def UniqueItemsRule.validate : Check := fun val _ res =>
  if val.type ≠ .typeArray then .ok res else .ok (loop (elements val) res)

/-- `EnumRule::validate` -/
def EnumRule.validate (vals : List MojObject) : Check := fun val _ res =>
  if val ∈ vals then .ok res else .ok (.fail "invalid enum value")

mutual
/-- `Rule::validate`, by the class of the rule. -/
def Rule.validate (ext : Externals) : Rule → Check
  | .schema _ rules => SchemaRule.validate (checks ext rules)
  | .simpleType types => SimpleTypeRule.validate types
  | .unionType rules => UnionTypeRule.validate (checks ext rules)
  | .simpleDisallow types => DisallowRule.validate (SimpleTypeRule.validate types)
  | .unionDisallow rules => DisallowRule.validate (UnionTypeRule.validate (checks ext rules))
  | .additionalProperties allowAdditional schemaRule =>
    AdditionalPropertiesRule.validate allowAdditional (check? ext schemaRule)
  | .properties props additionalRule => PropertiesRule.validate (propChecks ext props) (check? ext additionalRule)
  | .simpleItems schemaRule => SimpleItemsRule.validate (Rule.validate ext schemaRule)
  | .tupleItems rules additionalRule => TupleItemsRule.validate (checks ext rules) (check? ext additionalRule)
  | .requires requiredProp => RequiresRule.validate requiredProp
  | .pattern pattern regexp => PatternRule.validate pattern regexp
  | .comp rule => fun val _ res => .ok (rule.validate ext.strToDouble val res)
  | .arrayLen rule => fun val _ res => .ok (rule.validate val res)
  | .uniqueItems => UniqueItemsRule.validate
  | .stringLen rule => fun val _ res => .ok (rule.validate val res)
  | .enum vals => EnumRule.validate vals
  | .divisible rule => fun val _ res => rule.validate val res

def checks (ext : Externals) : List Rule → List Check
  | [] => []
  | rule :: rules => Rule.validate ext rule :: checks ext rules

def check? (ext : Externals) : Option Rule → Option Check
  | none => none
  | some rule => some (Rule.validate ext rule)

def propChecks (ext : Externals) : List (MojString × Rule) → List PropCheck
  | [] => []
  | (key, rule) :: props => ⟨key, rule.optional, Rule.validate ext rule⟩ :: propChecks ext props
end

/-- `MojSchema::validate`; without a rule everything is valid. -/
def validate (ext : Externals) (rule : Option Rule) (obj : MojObject) (res : Result) : Except Trap Result :=
  match rule with
  | some rule => rule.validate ext obj .undefined { res with valid := true }
  | none => .ok { res with valid := true }

end MojSchema

end Db8
