import Db8.Core.MojSchemaLoops

/-!
# Core.MojSchemaValidate

The rules of a schema decide what it means.

* `Stage`        — some of the rules of a schema, with what they find out together.
* `PartsSettle`  — the schemas in a schema are read right.
* `stage_properties`, `stage_type`, `stage_items`, `stage_plain` — the rules for the keywords.
* `validate_iff` — a value is valid just when it satisfies the schema.
-/

namespace Db8

open Lib MojObject

namespace MojSchema

/-! ## Rules -/

section Rules

variable {ext : Externals} {obj : MojObject} {R : MojObject → Except Error Rule}

theorem checks_eq_map (ext : Externals) (rules : List Rule) : checks ext rules = rules.map (Rule.validate ext) := by
  induction rules with
  | nil => rfl
  | cons rule rules ih => rw [checks, ih, List.map_cons]

/-- Some of the rules of a schema, which find out together whether `Q` holds. -/
def Stage (ext : Externals) (rules : List Rule) (Q : MojObject → MojObject → Prop) : Prop :=
  ∃ Ps : List (MojObject → MojObject → Prop), List.Forall₂ Settles (checks ext rules) Ps ∧
    ∀ val parent, Regular val → ((∀ P ∈ Ps, P val parent) ↔ Q val parent)

namespace Stage

variable {rules rules' : List Rule} {rule : Rule} {P Q Q' : MojObject → MojObject → Prop}

theorem nil (h : ∀ val parent, Q val parent) : Stage ext [] Q :=
  ⟨[], .nil, fun val parent _ => iff_of_true (List.forall_mem_nil _) (h val parent)⟩

theorem single (h : Settles (rule.validate ext) Q) : Stage ext [rule] Q :=
  ⟨[Q], .cons h .nil, fun _ _ _ => List.forall_mem_singleton⟩

theorem append (h : Stage ext rules Q) (h' : Stage ext rules' Q') :
    Stage ext (rules ++ rules') fun val parent => Q val parent ∧ Q' val parent := by
  obtain ⟨Ps, hchecks, hQ⟩ := h
  obtain ⟨Ps', hchecks', hQ'⟩ := h'
  refine ⟨Ps ++ Ps', ?_, fun val parent hval => ?_⟩
  · rw [checks_eq_map, List.map_append, ← checks_eq_map, ← checks_eq_map]
    exact List.rel_append hchecks hchecks'
  · rw [List.forall_mem_append, hQ val parent hval, hQ' val parent hval]

theorem settles (h : Stage ext rules Q) : Settles (SchemaRule.validate (checks ext rules)) Q := by
  obtain ⟨Ps, hchecks, hQ⟩ := h
  exact (settles_schemaRule (P := fun P => P) hchecks).congr hQ

theorem addRule {key : MojString} {f : MojObject → Except Error Rule} {P : MojObject → MojObject → MojObject → Prop}
    (hrules : MojSchema.addRule obj key f = .ok rules)
    (h : ∀ t, obj.get key = some t → ∀ rule, f t = .ok rule → Settles (rule.validate ext) (P t)) :
    Stage ext rules fun val parent => ∀ t, obj.get key = some t → P t val parent := by
  unfold MojSchema.addRule at hrules
  cases hget : obj.get key with
  | none =>
    rw [hget] at hrules
    obtain rfl := Except.ok.inj hrules
    exact nil fun _ _ _ ht => by cases ht
  | some t =>
    rw [hget] at hrules
    dsimp only at hrules
    cases hf : f t with
    | error e =>
      rw [hf] at hrules
      cases hrules
    | ok rule =>
      rw [hf] at hrules
      obtain rfl := Except.ok.inj hrules
      refine single ((h t hget rule hf).congr fun val parent _ => ?_)
      exact ⟨fun hP _ ht => Option.some.inj ht ▸ hP, fun hP => hP t rfl⟩

/-- A rule that is made without an error. -/
theorem addOk {key : MojString} {f : MojObject → Rule} {P : MojObject → MojObject → MojObject → Prop}
    (hrules : MojSchema.addRule obj key (fun t => .ok (f t)) = .ok rules)
    (h : ∀ t, obj.get key = some t → Settles ((f t).validate ext) (P t)) :
    Stage ext rules fun val parent => ∀ t, obj.get key = some t → P t val parent :=
  addRule hrules fun t ht _ hrule => Except.ok.inj hrule ▸ h t ht

theorem congr (h : Stage ext rules Q) (hQ : ∀ val parent, Q val parent ↔ Q' val parent) : Stage ext rules Q' := by
  obtain ⟨Ps, hchecks, hPs⟩ := h
  exact ⟨Ps, hchecks, fun val parent hval => (hPs val parent hval).trans (hQ val parent)⟩

end Stage

theorem settles_named {name : MojObject} {ts : List MojObjectType} (h : SimpleTypeRule.fromObject name = .ok ts) :
    Settles (SimpleTypeRule.validate ts) fun val _ => Named name val := by
  unfold SimpleTypeRule.fromObject at h
  cases hlookup : types.lookup name.stringValue.chars with
  | none =>
    rw [hlookup] at h
    cases h
  | some ts' =>
    rw [hlookup] at h
    obtain rfl := Except.ok.inj h
    intro val parent res hval hres
    unfold SimpleTypeRule.validate
    split_ifs with hmem
    · exact iff_of_true hres ⟨_, hlookup, hmem⟩
    · refine iff_of_false Bool.false_ne_true fun hnamed => hmem ?_
      obtain ⟨ts, hts, hmem⟩ := hnamed
      exact Option.some.inj (hlookup.symm.trans hts) ▸ hmem

/-- The schemas in the one that is read are read right. -/
def PartsSettle (ext : Externals) (obj : MojObject) (R : MojObject → Except Error Rule) : Prop :=
  ∀ part, Part obj part → ∀ rule, R part = .ok rule →
    rule.optional = optionalOf part ∧ Settles (rule.validate ext) (Satisfies ext part)

theorem settles_alternatives (hparts : PartsSettle ext obj R) {t : MojObject} {rules : List Rule}
    (ht : ∀ s ∈ elements t, s.type ≠ .typeString → Part obj s) (h : UnionTypeRule.fromObject R t = .ok rules) :
    List.Forall₂ (fun check s => Settles check (Alternative ext s)) (checks ext rules) (elements t) := by
  rw [checks_eq_map, List.forall₂_map_left_iff]
  have hread := (List.forall₂_and_left _ _).mpr ⟨fun s hs => hs, mapM_eq_ok.mp h⟩
  refine hread.flip.imp fun rule s hbody => ?_
  obtain ⟨hs, hrule⟩ := hbody
  split_ifs at hrule with hstring
  · obtain ⟨ts, hts, rfl⟩ := map_eq_ok hrule
    refine (settles_named hts).congr fun val parent _ => ?_
    rw [Alternative, if_pos hstring]
  · refine (hparts s (ht s hs hstring) rule hrule).2.congr fun val parent _ => ?_
    rw [Alternative, if_neg hstring]

theorem settles_additional (hparts : PartsSettle ext obj R) {a : MojObject} {rule : Rule}
    (ha : obj.get AdditionalPropertiesKey = some a) (h : AdditionalPropertiesRule.fromObject R a = .ok rule) :
    Settles (rule.validate ext) (Additional ext a) := by
  unfold AdditionalPropertiesRule.fromObject at h
  split_ifs at h with hbool
  · obtain rfl := Except.ok.inj h
    intro val parent res _ hres
    rw [Additional, if_pos hbool]
    change Gives (if (!a.boolValue) = true then _ else _) _
    cases a.boolValue with
    | false => exact iff_of_false Bool.false_ne_true Bool.false_ne_true
    | true => exact iff_of_true hres rfl
  · obtain ⟨schemaRule, hschema, rfl⟩ := map_eq_ok h
    refine (hparts a (.additional ha hbool) schemaRule hschema).2.congr fun val parent _ => ?_
    rw [Additional, if_neg hbool]

theorem isOrdered_of_get {o val : MojObject} {key : MojString} (h : o.isOrdered = true) (hget : o.get key = some val) :
    val.isOrdered = true :=
  (isOrderedProps_iff.mp (isOrderedProps_props h)).1 _ ((get_eq_some h).mp hget)

theorem isOrdered_of_mem_elements {o x : MojObject} (h : o.isOrdered = true) (hx : x ∈ elements o) : x.isOrdered = true := by
  cases o with
  | array xs => exact isOrderedVec_iff.mp h x hx
  | _ => cases hx

theorem propChecks_eq_map (ext : Externals) (props : List (MojString × Rule)) :
    propChecks ext props = props.map fun prop => ⟨prop.1, prop.2.optional, prop.2.validate ext⟩ := by
  induction props with
  | nil => rfl
  | cons prop props ih => rw [propChecks, ih, List.map_cons]

theorem checks_propChecks (hparts : PartsSettle ext obj R) {ps : MojObject} {props : List (MojString × Rule)}
    (hps : ∀ p ∈ ps.props, Part obj p.2) (h : PropertiesRule.fromObject R ps = .ok props) :
    List.Forall₂ (Checks ext) (propChecks ext props) ps.props := by
  rw [propChecks_eq_map, List.forall₂_map_left_iff]
  have hread := (List.forall₂_and_left _ _).mpr ⟨fun p hp => hp, mapM_eq_ok.mp h⟩
  refine hread.flip.imp fun prop p hbody => ?_
  obtain ⟨hp, hprop⟩ := hbody
  obtain ⟨rule, hrule, rfl⟩ := map_eq_ok hprop
  obtain ⟨hoptional, hsettles⟩ := hparts p.2 (hps p hp) rule hrule
  exact ⟨rfl, hoptional, hsettles⟩

/-- What is said of the properties and items that the schema does not name. -/
def Unnamed (ext : Externals) (obj : MojObject) (v val : MojObject) : Prop :=
  ∀ a, obj.get AdditionalPropertiesKey = some a → Additional ext a v val

theorem settles_additionalRule (hparts : PartsSettle ext obj R) {additional : Option Rule}
    (h : additionalRule R obj = .ok additional) :
    (∀ check, check? ext additional = some check → Settles check (Unnamed ext obj)) ∧
      (additional.isSome = (obj.get AdditionalPropertiesKey).isSome) := by
  unfold additionalRule at h
  cases hget : obj.get AdditionalPropertiesKey with
  | none =>
    rw [hget] at h
    obtain rfl := Except.ok.inj h
    exact ⟨fun check hcheck => (by cases hcheck), rfl⟩
  | some a =>
    rw [hget] at h
    obtain ⟨rule, hrule, rfl⟩ := map_eq_ok h
    refine ⟨fun check hcheck => ?_, rfl⟩
    obtain rfl := Option.some.inj hcheck
    refine (settles_additional hparts hget hrule).congr fun v val _ => ?_
    exact ⟨fun hadd _ ha => Option.some.inj (hget.symm.trans ha) ▸ hadd, fun hadd => hadd a hget⟩

theorem get_eq_none_iff {o : MojObject} (h : o.isOrdered = true) {key : MojString} :
    o.get key = none ↔ ∀ v ∈ o.props, v.1 ≠ key := by
  rw [Option.eq_none_iff_forall_ne_some]
  constructor
  · intro hnone v hv he
    exact hnone v.2 ((get_eq_some h).mpr (he ▸ hv))
  · intro hall v hget
    exact hall (key, v) ((get_eq_some h).mp hget) rfl

theorem propsHold_iff {ps val : MojObject} (hps : ps.isOrdered = true) (hval : val.isOrdered = true) :
    PropsHold ext ps.props val.props val ↔ ∀ key s, ps.get key = some s →
      (∀ v, val.get key = some v → Satisfies ext s v val) ∧ (val.get key = none → optionalOf s = true) := by
  simp only [get_eq_some hps, get_eq_some hval, get_eq_none_iff hval]
  constructor
  · intro h key s hs
    refine ⟨fun v hv => (h (key, s) hs).1 (key, v) hv rfl, (h (key, s) hs).2⟩
  · intro h p hp
    refine ⟨fun v hv he => (h p.1 p.2 hp).1 v.2 (he ▸ hv), (h p.1 p.2 hp).2⟩

theorem extrasHold_iff {E : MojObject → MojObject → Prop} {ps val : MojObject} (hps : ps.isOrdered = true)
    (hval : val.isOrdered = true) :
    ExtrasHold E ps.props val.props val ↔ ∀ key v, val.get key = some v → ps.get key = none → E v val := by
  simp only [get_eq_some hval, get_eq_none_iff hps]
  exact ⟨fun h key v hv hnone => h (key, v) hv hnone, fun h v hv hnone => h v.1 v.2 hv hnone⟩

theorem inOrder_props {o : MojObject} (h : o.isOrdered = true) : InOrder o.props :=
  (isOrderedProps_iff.mp (isOrderedProps_props h)).2

/-- The rule for the properties asks for what `properties` and `additionalProperties` say. -/
theorem stage_properties (hparts : PartsSettle ext obj R) (hobj : obj.isOrdered = true) {additional : Option Rule}
    {rules : List Rule} (hadditional : additionalRule R obj = .ok additional)
    (h : propertiesRule R obj additional = .ok rules) :
    Stage ext rules fun val _ =>
      (∀ key s, declared obj key = some s → (∀ v, val.get key = some v → Satisfies ext s v val) ∧
        (val.get key = none → optionalOf s = true)) ∧
      ∀ key v, val.get key = some v → declared obj key = none → Unnamed ext obj v val := by
  obtain ⟨hsettles, hsome⟩ := settles_additionalRule hparts hadditional
  have hnone : check? ext additional = none → ∀ v val, Unnamed ext obj v val := by
    intro hcheck v val a ha
    rw [ha] at hsome
    cases additional with
    | none => cases hsome
    | some rule => cases hcheck
  unfold propertiesRule at h
  split_ifs at h with hrule
  · obtain ⟨props, hprops, rfl⟩ := map_eq_ok h
    have hdeclared : ∀ key, declared obj key = ((obj.get PropertiesKey).getD .undefined).get key := by
      intro key
      unfold declared
      cases obj.get PropertiesKey with
      | none => rfl
      | some ps => rfl
    have hpart : ∀ p ∈ ((obj.get PropertiesKey).getD .undefined).props, Part obj p.2 := by
      intro p hp
      cases hget : obj.get PropertiesKey with
      | none =>
        rw [hget] at hp
        cases hp
      | some ps =>
        rw [hget] at hp
        exact .property hget hp
    have hordered : ((obj.get PropertiesKey).getD .undefined).isOrdered = true := by
      cases hget : obj.get PropertiesKey with
      | none => rfl
      | some ps => exact isOrdered_of_get hobj hget
    refine Stage.single fun val parent res hval hres => ?_
    refine (gives_propsLoop hsettles hnone (checks_propChecks hparts hpart hprops) (inOrder_props hordered) (inOrder_props hval.ordered)
      (fun v hv => hval.of_mem_props hv) hres).congr ?_
    rw [propsHold_iff hordered hval.ordered, extrasHold_iff hordered hval.ordered]
    simp only [hdeclared]
  · obtain rfl := Except.ok.inj h
    rw [Bool.or_eq_true, not_or, hsome] at hrule
    refine Stage.nil fun val _ => ⟨fun key s hs => ?_, fun key v _ _ a ha => absurd (by rw [ha]; rfl) hrule.2⟩
    obtain ⟨ps, hps, -⟩ := Option.bind_eq_some_iff.mp hs
    exact absurd (by rw [hps]; rfl) hrule.1

/-- The rules for `type` and `disallow` look for the same types. -/
theorem settles_typeRule (hparts : PartsSettle ext obj R) {t : MojObject} {rule : Rule}
    {simple : List MojObjectType → Rule} {union : List Rule → Rule}
    (ht : t.type = .typeArray → ∀ s ∈ elements t, s.type ≠ .typeString → Part obj s)
    (h : typeRule R simple union t = .ok rule) :
    (∃ ts, simple ts = rule ∧ Settles (SimpleTypeRule.validate ts) (OfType ext t)) ∨
      ∃ rules, union rules = rule ∧ Settles (UnionTypeRule.validate (checks ext rules)) (OfType ext t) := by
  unfold typeRule at h
  split_ifs at h with harray
  · obtain ⟨rules, hrules, hrule⟩ := map_eq_ok h
    refine .inr ⟨rules, hrule, (settles_unionTypeRule (settles_alternatives hparts (ht harray) hrules)).congr fun _ _ _ => ?_⟩
    rw [OfType, if_pos harray]
    simp only [exists_prop]
  · obtain ⟨ts, hts, hrule⟩ := map_eq_ok h
    refine .inl ⟨ts, hrule, (settles_named hts).congr fun _ _ _ => ?_⟩
    rw [OfType, if_neg harray]

theorem stage_type (hparts : PartsSettle ext obj R) {rules : List Rule}
    (h : addRule obj TypeKey (typeRule R .simpleType .unionType) = .ok rules) :
    Stage ext rules fun val parent => ∀ t, obj.get TypeKey = some t → OfType ext t val parent := by
  refine Stage.addRule h fun t ht rule hrule => ?_
  obtain ⟨ts, rfl, hsettles⟩ | ⟨rules, rfl, hsettles⟩ :=
    settles_typeRule hparts (fun harray s hs hne => .alternative (.inl rfl) ht harray hs hne) hrule
  · exact hsettles
  · exact hsettles

theorem stage_disallow (hparts : PartsSettle ext obj R) {rules : List Rule}
    (h : addRule obj DisallowKey (typeRule R .simpleDisallow .unionDisallow) = .ok rules) :
    Stage ext rules fun val parent => ∀ t, obj.get DisallowKey = some t → ¬OfType ext t val parent := by
  refine Stage.addRule h fun t ht rule hrule => ?_
  obtain ⟨ts, rfl, hsettles⟩ | ⟨rules, rfl, hsettles⟩ :=
    settles_typeRule hparts (fun harray s hs hne => .alternative (.inr (.inl rfl)) ht harray hs hne) hrule
  · exact settles_disallowRule hsettles
  · exact settles_disallowRule hsettles

theorem stage_items (hparts : PartsSettle ext obj R) {additional : Option Rule} {rules : List Rule}
    (hadditional : additionalRule R obj = .ok additional) (h : addRule obj ItemsKey (itemsRule R additional) = .ok rules) :
    Stage ext rules fun val _ => ∀ t, obj.get ItemsKey = some t →
      (t.type ≠ .typeArray → ∀ x ∈ elements val, Satisfies ext t x val) ∧
      (t.type = .typeArray → val.type = .typeArray →
        (∀ (i : Nat) s, (elements t)[i]? = some s → ∃ x, (elements val)[i]? = some x ∧ Alternative ext s x val) ∧
          ∀ x ∈ (elements val).drop (elements t).length, Unnamed ext obj x val) := by
  obtain ⟨hunnamed, hsome⟩ := settles_additionalRule hparts hadditional
  refine Stage.addRule h fun t ht rule hrule => ?_
  unfold itemsRule at hrule
  split_ifs at hrule with harray
  · obtain ⟨alternatives, halternatives, rfl⟩ := map_eq_ok hrule
    have hplaces := settles_alternatives hparts (fun s hs hne => .alternative (.inr (.inr rfl)) ht harray hs hne) halternatives
    intro val parent res hval hres
    change Gives (if val.type ≠ .typeArray then _ else _) _
    split_ifs with hvalArray
    · exact iff_of_true hres ⟨fun hne => absurd harray hne, fun _ he => absurd he hvalArray⟩
    · refine (settles_tupleLoop hplaces hunnamed val (fun x hx => hval.of_mem_elements hx) hres).congr ?_
      have hnone : (check? ext additional).isSome = false → ∀ x, Unnamed ext obj x val := by
        intro hcheck x a ha
        rw [ha] at hsome
        cases additional with
        | none => cases hsome
        | some rule => cases hcheck
      constructor
      · intro ⟨hall, hrest⟩
        refine ⟨fun hne => absurd harray hne, fun _ _ => ⟨hall, fun x hx => ?_⟩⟩
        cases hcheck : (check? ext additional).isSome with
        | false => exact hnone hcheck x
        | true => exact hrest hcheck x hx
      · intro hitems
        obtain ⟨hall, hrest⟩ := hitems.2 harray (not_not.mp hvalArray)
        exact ⟨hall, fun _ => hrest⟩
  · obtain ⟨schemaRule, hschema, rfl⟩ := map_eq_ok hrule
    intro val parent res hval hres
    refine (settles_itemsLoop (hparts t (.items ht harray) schemaRule hschema).2 val
      (fun x hx => hval.of_mem_elements hx) hres).congr ?_
    exact ⟨fun hall => ⟨fun _ => hall, fun he => absurd he harray⟩, fun hitems => hitems.1 harray⟩

/-! ### Rules without other schemas -/

/-- A rule that keeps a valid result when `P` holds, and fails it otherwise. -/
theorem settles_of_validate {rule : Rule} {P : MojObject → MojObject → Prop}
    (h : ∀ val parent res, Regular val → res.valid = true → ∃ res', rule.validate ext val parent res = .ok res' ∧
      (res'.valid = true ↔ P val parent)) : Settles (rule.validate ext) P := by
  intro val parent res hval hres
  obtain ⟨res', hok, hiff⟩ := h val parent res hval hres
  rw [hok]
  exact hiff

/-- The millionths of a number that has a place in 64 bits are kept. -/
theorem kept_eq_self {x : Int} (hlow : -(2 ^ 63) ≤ x) (hhigh : x < 2 ^ 63) : kept x = x := by
  rw [kept, wraps_eq_zero hlow hhigh, Int.zero_mul, Int.sub_zero]

theorem settles_comp {isMax : Bool} {key : MojString} {bound : MojObject} (hbound : |units ext.strToDouble bound| < 2 ^ 63) :
    Settles ((compRule ext obj isMax key bound).validate ext) fun val _ => isNumber val = true →
      InBound isMax (canEqual obj key) (units ext.strToDouble val) (units ext.strToDouble bound) := by
  have hrule : compRule ext obj isMax key bound =
      .comp { CompRule.fromObject ext.strToDouble isMax bound with canEqual := canEqual obj key } := by
    unfold compRule canEqual
    cases obj.get key with
    | none => rfl
    | some c => rfl
  rw [hrule]
  refine settles_of_validate fun val parent res hval hres => ⟨_, rfl, ?_⟩
  by_cases hnumber : isNumber val = true
  · obtain ⟨hlow, hhigh⟩ := hval.units_lt hnumber ext.strToDouble
    have hrep : (CompRule.fromObject ext.strToDouble isMax bound).val.rep.toInt = units ext.strToDouble bound :=
      (rep_eq_kept ext.strToDouble bound).trans (kept_eq_self (abs_lt.mp hbound).1.le (abs_lt.mp hbound).2)
    rw [compRule_valid ext.strToDouble _ hnumber hres, kept_eq_self hlow hhigh, hrep]
    exact ⟨fun h _ => h, fun h => h hnumber⟩
  · rw [CompRule.validate, if_neg hnumber]
    exact iff_of_true hres fun h => absurd h hnumber

theorem valid_ite {p : Prop} [Decidable p] {res failed : Result} (hres : res.valid = true) (hfailed : failed.valid = false) :
    (if p then res else failed).valid = true ↔ p := by
  split_ifs with hp
  · exact iff_of_true hres hp
  · exact iff_of_false (by simp [hfailed]) hp

/-- A whole number is no greater than another one just when its millionths are not. -/
theorem intValue_le_iff (strToDouble : MojString → ℚ) {n : MojObject}
    (hn : isNumber n = true ∧ 1000000 ∣ units strToDouble n) (m : Nat) :
    ((n.intValue.toInt ≤ m) ↔ units strToDouble n ≤ m * 1000000) ∧
      ((m ≤ n.intValue.toInt) ↔ m * 1000000 ≤ units strToDouble n) := by
  obtain ⟨k, hk⟩ := hn.2
  rw [intValue_toInt strToDouble hn.1, hk, Int.mul_tdiv_cancel_left _ (by decide)]
  omega

/-- What a bound of a length asks for. -/
def LengthIn (isMax : Bool) (length : Nat) (n : Int) : Prop := if isMax then length * 1000000 ≤ n else n ≤ length * 1000000

theorem ite_intValue_iff {n : MojObject} (hn : isNumber n = true ∧ 1000000 ∣ units ext.strToDouble n) (isMax : Bool) (m : Nat) :
    (if isMax then (m : Int) ≤ n.intValue.toInt else (m : Int) ≥ n.intValue.toInt) ↔
      LengthIn isMax m (units ext.strToDouble n) := by
  cases isMax with
  | true => exact (intValue_le_iff ext.strToDouble hn m).2
  | false => exact (intValue_le_iff ext.strToDouble hn m).1

theorem settles_arrayLen (isMax : Bool) {n : MojObject} (hn : isNumber n = true ∧ 1000000 ∣ units ext.strToDouble n) :
    Settles ((Rule.arrayLen (.fromObject isMax n)).validate ext) fun val _ => ∀ xs, val = .array xs →
      LengthIn isMax xs.length (units ext.strToDouble n) := by
  refine settles_of_validate fun val parent res _ hres => ⟨_, rfl, ?_⟩
  cases val with
  | array xs =>
    refine (valid_ite hres rfl).trans ((ite_intValue_iff hn isMax xs.length).trans ⟨fun h xs' he => ?_, fun h => h xs rfl⟩)
    exact MojObject.array.inj he ▸ h
  | _ => exact iff_of_true hres fun _ h => by cases h

theorem settles_stringLen (isMax : Bool) {n : MojObject} (hn : isNumber n = true ∧ 1000000 ∣ units ext.strToDouble n) :
    Settles ((Rule.stringLen (.fromObject isMax n)).validate ext) fun val _ => ∀ s, val = .string s →
      LengthIn isMax s.chars.length (units ext.strToDouble n) := by
  refine settles_of_validate fun val parent res _ hres => ⟨_, rfl, ?_⟩
  cases val with
  | string s =>
    refine (valid_ite hres rfl).trans ((ite_intValue_iff hn isMax s.chars.length).trans ⟨fun h s' he => ?_, fun h => h s rfl⟩)
    exact MojObject.string.inj he ▸ h
  | _ => exact iff_of_true hres fun _ h => by cases h

theorem valid_uniqueLoop (xs : List MojObject) (res : Result) :
    (UniqueItemsRule.loop xs res).valid = true ↔ res.valid = true ∧ xs.Nodup := by
  induction xs generalizing res with
  | nil => exact (and_iff_left List.nodup_nil).symm
  | cons x xs ih =>
    rw [UniqueItemsRule.loop, ih, List.nodup_cons]
    split_ifs with hmem
    · exact iff_of_false (fun h => Bool.false_ne_true h.1) fun h => h.2.1 hmem
    · exact and_congr_right fun _ => (and_iff_right hmem).symm

theorem settles_uniqueItems : Settles (Rule.uniqueItems.validate ext) fun val _ => ∀ xs, val = .array xs → xs.Nodup := by
  refine settles_of_validate fun val parent res _ hres => ?_
  cases val with
  | array xs =>
    refine ⟨_, rfl, (valid_uniqueLoop xs res).trans ((and_iff_right hres).trans ?_)⟩
    exact ⟨fun h xs' he => MojObject.array.inj he ▸ h, fun h => h xs rfl⟩
  | _ => exact ⟨_, rfl, iff_of_true hres fun _ h => by cases h⟩

theorem settles_enum (e : MojObject) : Settles ((Rule.enum (elements e)).validate ext) fun val _ => val ∈ elements e := by
  refine settles_of_validate fun val parent res _ hres => ?_
  change ∃ res', (if val ∈ elements e then _ else _) = _ ∧ _
  split_ifs with hmem
  · exact ⟨_, rfl, iff_of_true hres hmem⟩
  · exact ⟨_, rfl, iff_of_false Bool.false_ne_true hmem⟩

theorem settles_requires (r : MojObject) : Settles ((Rule.requires r.stringValue).validate ext) fun _ parent =>
    ∃ v, parent.get r.stringValue = some v := by
  refine settles_of_validate fun val parent res _ hres => ?_
  change ∃ res', (if (parent.get r.stringValue).isSome = true then _ else _) = _ ∧ _
  rw [← Option.isSome_iff_exists]
  split_ifs with hsome
  · exact ⟨_, rfl, iff_of_true hres hsome⟩
  · exact ⟨_, rfl, iff_of_false Bool.false_ne_true hsome⟩

theorem settles_pattern {p : MojObject} {rule : Rule} (h : PatternRule.fromObject ext p = .ok rule) :
    Settles (rule.validate ext) fun val _ => ∃ regexp, ext.regex p.stringValue = .ok regexp ∧ regexp val.stringValue = true := by
  unfold PatternRule.fromObject at h
  cases hregex : ext.regex p.stringValue with
  | error what =>
    rw [hregex] at h
    cases h
  | ok regexp =>
    rw [hregex] at h
    obtain rfl := Except.ok.inj h
    refine settles_of_validate fun val parent res _ hres => ?_
    have hmatch : (∃ m, (.ok regexp : Except (List MojByte) (MojString → Bool)) = .ok m ∧ m val.stringValue = true) ↔
        regexp val.stringValue = true :=
      ⟨fun ⟨m, hm, hval⟩ => Except.ok.inj hm ▸ hval, fun hval => ⟨regexp, rfl, hval⟩⟩
    change ∃ res', (if regexp val.stringValue = true then _ else _) = _ ∧ _
    rw [hmatch]
    split_ifs with hval
    · exact ⟨_, rfl, iff_of_true hres hval⟩
    · exact ⟨_, rfl, iff_of_false Bool.false_ne_true hval⟩

/-- The one check that can trap: a regular number is not the least one. -/
theorem settles_divisible {d : MojObject} (hd : isNumber d = true ∧ 1000000 ∣ units ext.strToDouble d)
    (hzero : units ext.strToDouble d ≠ 0) :
    Settles ((Rule.divisible (.fromObject d)).validate ext) fun val _ => isNumber val = true →
      units ext.strToDouble d ∣ units ext.strToDouble val := by
  refine settles_of_validate fun val parent res hval hres => ?_
  change ∃ res', (DivisibleRule.fromObject d).validate val res = _ ∧ _
  by_cases hnumber : isNumber val = true
  · obtain ⟨k, hk⟩ := hd.2
    have hwhole : d.intValue.toInt = k := by
      rw [intValue_toInt ext.strToDouble hd.1, hk, Int.mul_tdiv_cancel_left _ (by decide)]
    have hne : d.intValue ≠ 0 := by
      rw [ne_eq, ← Int64.toInt_inj, hwhole]
      exact fun he => hzero (by rw [hk, he, Int64.toInt_zero, Int.mul_zero])
    have hmul : d.intValue.toInt * 1000000 = units ext.strToDouble d := by
      rw [hwhole, hk, Int.mul_comm]
    obtain ⟨res', hok, hiff⟩ := @divisibleRule_validate ext.strToDouble (.fromObject d) val res hnumber hres
      fun htrap => hval.intValue_ne_minValue hnumber htrap.1
    refine ⟨res', hok, hiff.trans ?_⟩
    change d.intValue ≠ 0 ∧ d.intValue.toInt * 1000000 ∣ _ ↔ _
    rw [hmul]
    exact ⟨fun h _ => h.2, fun h => ⟨hne, h hnumber⟩⟩
  · refine ⟨res, ?_, iff_of_true hres fun h => absurd h hnumber⟩
    rw [DivisibleRule.validate, if_pos (by simpa using hnumber)]

theorem stage_uniqueItems (obj : MojObject) :
    Stage ext (if (obj.get UniqueItemsKey).any MojObject.boolValue then [Rule.uniqueItems] else []) fun val _ =>
      ∀ u, obj.get UniqueItemsKey = some u → u.boolValue = true → ∀ xs, val = .array xs → xs.Nodup := by
  cases hget : obj.get UniqueItemsKey with
  | none => exact Stage.nil fun _ _ _ hu => by cases hu
  | some u =>
    rw [Option.any_some]
    split_ifs with hunique
    · refine Stage.congr (Stage.single settles_uniqueItems) fun val _ => ?_
      exact ⟨fun h _ _ _ => h, fun h => h u rfl hunique⟩
    · refine Stage.nil fun _ _ v hv htrue => ?_
      obtain rfl := Option.some.inj hv
      exact absurd htrue hunique

/-- **The rules behind those for `items`** ask for what their keywords say. -/
theorem stage_plain (hfit : NumbersFit ext obj) {rules : List Rule}
    (h : plainRules ext obj = .ok rules) : Stage ext rules fun val parent => Plain ext obj val parent := by
  unfold plainRules at h
  obtain ⟨pattern, hpattern, h⟩ := bind_eq_ok.mp h
  obtain ⟨requires, hrequires, h⟩ := bind_eq_ok.mp h
  obtain ⟨minimum, hminimum, h⟩ := bind_eq_ok.mp h
  obtain ⟨maximum, hmaximum, h⟩ := bind_eq_ok.mp h
  obtain ⟨minItems, hminItems, h⟩ := bind_eq_ok.mp h
  obtain ⟨maxItems, hmaxItems, h⟩ := bind_eq_ok.mp h
  obtain ⟨minLength, hminLength, h⟩ := bind_eq_ok.mp h
  obtain ⟨maxLength, hmaxLength, h⟩ := bind_eq_ok.mp h
  obtain ⟨enum, henum, h⟩ := bind_eq_ok.mp h
  obtain ⟨divisibleBy, hdivisibleBy, h⟩ := bind_eq_ok.mp h
  obtain rfl := pure_eq_ok.mp h
  have hpattern : Stage ext pattern _ := Stage.addRule hpattern fun t _ rule hrule => settles_pattern hrule
  have hall := ((hpattern.append
    (Stage.addOk hrequires fun r _ => settles_requires r)).append
    (Stage.addOk hminimum fun bound hb => settles_comp (hfit.bound _ bound (.inl rfl) hb).2)).append
    (Stage.addOk hmaximum fun bound hb => settles_comp (hfit.bound _ bound (.inr rfl) hb).2)
  have hall := ((hall.append (Stage.addOk hminItems fun n hn => settles_arrayLen false (hfit.length _ n (by simp) hn))).append
    (Stage.addOk hmaxItems fun n hn => settles_arrayLen true (hfit.length _ n (by simp) hn))).append (stage_uniqueItems obj)
  have hall := (hall.append (Stage.addOk hminLength fun n hn => settles_stringLen false (hfit.length _ n (by simp) hn))).append
    (Stage.addOk hmaxLength fun n hn => settles_stringLen true (hfit.length _ n (by simp) hn))
  have hall := (hall.append (Stage.addOk henum fun e _ => settles_enum e)).append
    (Stage.addOk hdivisibleBy fun d hd => settles_divisible ⟨(hfit.divisor d hd).1, (hfit.divisor d hd).2.1⟩
      (hfit.divisor d hd).2.2)
  refine hall.congr fun val parent => ?_
  constructor
  · intro h
    obtain ⟨⟨⟨⟨⟨⟨⟨⟨⟨⟨hpattern, hrequires⟩, hminimum⟩, hmaximum⟩, hminItems⟩, hmaxItems⟩, hunique⟩, hminLength⟩, hmaxLength⟩,
      henum⟩, hdivisibleBy⟩ := h
    exact ⟨hpattern, hrequires, hminimum, hmaximum, fun n xs hn => hminItems n hn xs, fun n xs hn => hmaxItems n hn xs,
      fun u xs hu htrue => hunique u hu htrue xs, fun n s hn => hminLength n hn s, fun n s hn => hmaxLength n hn s, henum,
      hdivisibleBy⟩
  · intro h
    exact ⟨⟨⟨⟨⟨⟨⟨⟨⟨⟨h.pattern, h.requires⟩, h.minimum⟩, h.maximum⟩, fun n hn xs => h.minItems n xs hn⟩,
      fun n hn xs => h.maxItems n xs hn⟩, fun u hu htrue xs => h.uniqueItems u xs hu htrue⟩, fun n hn s => h.minLength n s hn⟩,
      fun n hn s => h.maxLength n s hn⟩, h.enum⟩, h.divisibleBy⟩

/-- The rules of one level, when those of the schemas in it are right. -/
theorem settles_fromObject_succ {fuel : Nat} {rule : Rule} (hobj : obj.isOrdered = true)
    (hparts : PartsSettle ext obj (SchemaRule.fromObject ext fuel))
    (hfit : NumbersFit ext obj) (h : SchemaRule.fromObject ext (fuel + 1) obj = .ok rule) :
    rule.optional = optionalOf obj ∧ Settles (rule.validate ext) (Satisfies ext obj) := by
  rw [SchemaRule.fromObject] at h
  obtain ⟨additional, hadditional, h⟩ := bind_eq_ok.mp h
  obtain ⟨properties, hproperties, h⟩ := bind_eq_ok.mp h
  obtain ⟨type, htype, h⟩ := bind_eq_ok.mp h
  obtain ⟨disallow, hdisallow, h⟩ := bind_eq_ok.mp h
  obtain ⟨items, hitems, h⟩ := bind_eq_ok.mp h
  obtain ⟨plain, hplain, h⟩ := bind_eq_ok.mp h
  obtain rfl := pure_eq_ok.mp h
  refine ⟨rfl, ?_⟩
  have hall := ((((stage_properties hparts hobj hadditional hproperties).append (stage_type hparts htype)).append
    (stage_disallow hparts hdisallow)).append (stage_items hparts hadditional hitems)).append (stage_plain hfit hplain)
  refine hall.settles.congr fun val parent _ => ?_
  rw [Satisfies]
  constructor
  · intro h
    obtain ⟨⟨⟨⟨⟨hproperties, hunnamed⟩, htype⟩, hdisallow⟩, hitems⟩, hplain⟩ := h
    exact ⟨hproperties, fun a ha key v hv hnone => hunnamed key v hv hnone a ha, htype, hdisallow,
      fun t ht => (hitems t ht).1, fun t ht harray hval =>
        ⟨((hitems t ht).2 harray hval).1, fun a ha x hx => ((hitems t ht).2 harray hval).2 x hx a ha⟩, hplain⟩
  · intro h
    obtain ⟨hproperties, hunnamed, htype, hdisallow, hitems, htuple, hplain⟩ := h
    exact ⟨⟨⟨⟨⟨hproperties, fun key v hv hnone a ha => hunnamed a ha key v hv hnone⟩, htype⟩, hdisallow⟩,
      fun t ht => ⟨hitems t ht, fun harray hval => ⟨(htuple t ht harray hval).1,
        fun x hx a ha => (htuple t ht harray hval).2 a ha x hx⟩⟩⟩, hplain⟩

theorem isOrdered_part {part : MojObject} (hobj : obj.isOrdered = true) (h : Part obj part) : part.isOrdered = true := by
  cases h with
  | property hps hp => exact (isOrderedProps_iff.mp (isOrderedProps_props (isOrdered_of_get hobj hps))).1 _ hp
  | additional ha _ => exact isOrdered_of_get hobj ha
  | alternative _ hget _ hs _ => exact isOrdered_of_mem_elements (isOrdered_of_get hobj hget) hs
  | items hget _ => exact isOrdered_of_get hobj hget

theorem settles_schema {fuel : Nat} {rule : Rule} (hfuel : obj.visit.length ≤ fuel) (hobj : obj.isOrdered = true)
    (hfit : ∀ s, SubSchema obj s → NumbersFit ext s) (h : SchemaRule.fromObject ext fuel obj = .ok rule) :
    rule.optional = optionalOf obj ∧ Settles (rule.validate ext) (Satisfies ext obj) := by
  induction fuel generalizing obj rule with
  | zero => exact absurd (visit_pos obj) (Nat.not_lt.mpr hfuel)
  | succ fuel ih =>
    obtain ⟨hlevel, hbelow⟩ := forall_subSchema.mp hfit
    refine settles_fromObject_succ hobj (fun part hpart partRule hrule => ?_) hlevel h
    have hlt := hpart.length_visit_lt
    exact ih (by omega) (isOrdered_part hobj hpart) (hbelow part hpart) hrule

end Rules

/-- **The rules that a schema is read to decide what the schema means**: a value is valid just when it satisfies the schema,
as long as the numbers of both fit 64 bits as the rules keep them and the divisors and lengths are whole. -/
theorem validate_iff (ext : Externals) (schema val : MojObject) (rule : Rule) (res : Result) (hschema : schema.isOrdered = true)
    (hfit : ∀ s, SubSchema schema s → NumbersFit ext s) (hval : Regular val) (h : fromObject ext schema = .ok rule) :
    ∃ res', validate ext (some rule) val res = .ok res' ∧ (res'.valid = true ↔ Satisfies ext schema val .undefined) := by
  have hgives := (settles_schema (Nat.le_refl _) hschema hfit h).2 val .undefined { res with valid := true } hval rfl
  cases hvalidate : validate ext (some rule) val res with
  | ok res' =>
    rw [show rule.validate ext val .undefined { res with valid := true } = .ok res' from hvalidate] at hgives
    exact ⟨res', rfl, hgives⟩
  | error trap =>
    rw [show rule.validate ext val .undefined { res with valid := true } = .error trap from hvalidate] at hgives
    exact hgives.elim

/-- A schema for arrays of arrays that are not empty. -/
def nestedSchema : MojObject := .object [(ItemsKey, .object [(MinItemsKey, .int 1)])]

def noExternals : Externals := ⟨fun _ => 0, fun _ => .ok fun _ => true⟩

theorem numbersFit_items : ∀ s, SubSchema (.object [(MinItemsKey, .int 1)]) s → NumbersFit noExternals s := by
  rw [forall_subSchema]
  refine ⟨⟨fun key b hkey hb => ?_, fun key n hkey hn => ?_, fun d hd => by cases hd⟩, fun part hpart => ?_⟩
  · obtain rfl | rfl := hkey
    · cases hb
    · cases hb
  · obtain rfl | rfl | rfl | rfl := hkey
    · obtain rfl := Option.some.inj hn
      exact ⟨rfl, dvd_refl 1000000⟩
    all_goals cases hn
  · cases hpart with
    | property hps _ => cases hps
    | additional ha _ => cases ha
    | alternative hkey hget _ _ _ => obtain rfl | rfl | rfl := hkey <;> cases hget
    | items hget _ => cases hget

theorem numbersFit_nested : ∀ s, SubSchema nestedSchema s → NumbersFit noExternals s := by
  rw [forall_subSchema]
  refine ⟨⟨fun key b hkey hb => ?_, fun key n hkey hn => ?_, fun d hd => by cases hd⟩, fun part hpart => ?_⟩
  · obtain rfl | rfl := hkey <;> cases hb
  · obtain rfl | rfl | rfl | rfl := hkey <;> cases hn
  · cases hpart with
    | property hps _ => cases hps
    | additional ha _ => cases ha
    | alternative hkey hget htype _ _ =>
      obtain rfl | rfl | rfl := hkey
      · cases hget
      · cases hget
      · obtain rfl := Option.some.inj hget
        cases htype
    | items hget _ =>
      obtain rfl := Option.some.inj hget
      exact numbersFit_items

/-- An empty array among the items is found. -/
theorem validate_iff_nested : ¬Satisfies noExternals nestedSchema (.array [.array [.null], .array []]) .undefined := by
  obtain ⟨res', hres', hiff⟩ := validate_iff noExternals nestedSchema (.array [.array [.null], .array []])
    (.schema true [.simpleItems (.schema true [.arrayLen ⟨false, 1⟩])]) ⟨true, []⟩ rfl numbersFit_nested
    ⟨rfl, by simp [visit, visitVec]⟩ rfl
  obtain rfl := Except.ok.inj hres'
  exact fun hsat => Bool.false_ne_true (hiff.mpr hsat)

end MojSchema

end Db8
