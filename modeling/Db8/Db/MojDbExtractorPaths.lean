import Db8.Db.MojDbExtractor
import Db8.Lib.Fallible
import Db8.Db.MojDbQuery

/-!
# Db.MojDbExtractorPaths

What the path of an extractor denotes in an object, and when the parts are those of what it denotes.

* `PropConfig`, `fromObjectImpl` — an extractor with its own defaults and those of the extractor it is part of.
* `Denotes`      — the values of a path, an array standing for its elements wherever it occurs.
* `branches`     — the values that the walk ends in, and the places where it misses a property.
* `MojDbTextServices` — the walk with the errors of the text services.
* `exact_iff`    — the texts and defaults with which the parts are right, when all arrays are split on the way.
-/

namespace Db8

open Lib

/-- What an extractor reads of its configuration besides the name. -/
structure ExtractorConfig where
  collate : Option MojDbCollationStrength
  tokenize : Bool
  default : Option MojObject

structure PropConfig extends ExtractorConfig where
  name : MojString
  prop_ne_nil : name.split MojDbPropExtractor.PropComponentSeparator ≠ []

namespace MojDbPropExtractor

/-- The default values: the elements of an array, or the value. -/
def defaultVals : Option MojObject → List MojObject
  | none => []
  | some (.array vec) => vec
  | some val => [val]

/-- The values of the default configuration come first. -/
def allDefaults (obj : PropConfig) (defaultConfig : Option ExtractorConfig) : List MojObject :=
  (defaultConfig.toList ++ [obj.toExtractorConfig]).flatMap fun c => defaultVals c.default

/-- `fromObjectImpl`: `key.assign` of a default has no collator. -/
def fromObjectImpl (obj : PropConfig) (defaultConfig : Option ExtractorConfig) : MojDbPropExtractor where
  name := obj.name
  collation := obj.collate <|> defaultConfig.bind fun c => c.collate
  tokenizer := obj.tokenize || defaultConfig.any fun c => c.tokenize
  default := .ofList ((allDefaults obj defaultConfig).map MojObject.toBytes)
  prop_ne_nil := obj.prop_ne_nil
  default_coded part hpart := by
    obtain ⟨o, -, ho⟩ := List.mem_map.mp (SortedSet.mem_ofList.mp hpart)
    exact ⟨o, ho.symm⟩

/-! ## What a path denotes -/

/-- The values that a value stands for: an array for those of its elements, everything else for itself. -/
inductive Element : MojObject → MojObject → Prop where
  | plain {val : MojObject} : val.isArray = false → Element val val
  | item {vec : List MojObject} {item val : MojObject} : item ∈ vec → Element item val → Element (.array vec) val

/-- The values of the properties that a component of a path is for. -/
def Child (propKey : MojString) (obj child : MojObject) : Prop :=
  if propKey = WildcardKey then ∃ p ∈ obj.props, p.2 = child else obj.get propKey = some child

def Denotes : List MojString → MojObject → MojObject → Prop
  | [], obj, val => Element obj val
  | propKey :: rest, obj, val => ∃ elem child, Element obj elem ∧ Child propKey elem child ∧ Denotes rest child val

/-- The values that the walk along the path ends in, and `none` for each property that it misses. -/
def branches : List MojString → MojObject → List (Option MojObject)
  | [], val => [some val]
  | propKey :: rest, obj =>
    if propKey = WildcardKey then obj.props.flatMap fun p => branches rest p.2
    else
      match obj.get propKey with
      | none => [none]
      | some (.array vec) => vec.flatMap (branches rest)
      | some val => branches rest val

/-- On the way, an array is nowhere an element of an array and nowhere below a wildcard. -/
def Split : List MojString → MojObject → Prop
  | [], val => val.isArray = false
  | propKey :: rest, obj => obj.isArray = false ∧
    if propKey = WildcardKey then ∀ p ∈ obj.props, Split rest p.2
    else
      match obj.get propKey with
      | none => True
      | some (.array vec) => ∀ item ∈ vec, Split rest item
      | some val => Split rest val

theorem element_iff {obj val : MojObject} (h : obj.isArray = false) : Element obj val ↔ val = obj := by
  constructor
  · intro hval
    cases hval with
    | plain _ => rfl
    | item _ _ => cases h
  · intro hval
    subst hval
    exact .plain h

theorem element_array_iff {vec : List MojObject} {val : MojObject} :
    Element (.array vec) val ↔ ∃ item ∈ vec, Element item val := by
  constructor
  · intro hval
    cases hval with
    | plain h => cases h
    | item hmem hval => exact ⟨_, hmem, hval⟩
  · intro ⟨item, hmem, hval⟩
    exact .item hmem hval

/-- An array stands for its elements. -/
theorem denotes_array_iff {path : List MojString} {vec : List MojObject} {val : MojObject} :
    Denotes path (.array vec) val ↔ ∃ item ∈ vec, Denotes path item val := by
  cases path with
  | nil => exact element_array_iff
  | cons propKey rest =>
    constructor
    · intro ⟨elem, child, helem, hchild, hval⟩
      obtain ⟨item, hmem, hitem⟩ := element_array_iff.mp helem
      exact ⟨item, hmem, elem, child, hitem, hchild, hval⟩
    · intro ⟨item, hmem, elem, child, hitem, hchild, hval⟩
      exact ⟨elem, child, .item hmem hitem, hchild, hval⟩

theorem denotes_cons_iff {propKey : MojString} {rest : List MojString} {obj val : MojObject} (h : obj.isArray = false) :
    Denotes (propKey :: rest) obj val ↔ ∃ child, Child propKey obj child ∧ Denotes rest child val := by
  constructor
  · intro ⟨elem, child, helem, hchild, hval⟩
    obtain rfl := (element_iff h).mp helem
    exact ⟨child, hchild, hval⟩
  · intro ⟨child, hchild, hval⟩
    exact ⟨obj, child, .plain h, hchild, hval⟩

/-- Induction on the path: the walk ends in the values that the path denotes. -/
theorem denotes_iff_branches {path : List MojString} {obj val : MojObject} (h : Split path obj) :
    Denotes path obj val ↔ some val ∈ branches path obj := by
  induction path generalizing obj with
  | nil =>
    rw [branches, List.mem_singleton, Option.some.injEq]
    exact element_iff h
  | cons propKey rest ih =>
    obtain ⟨hplain, hnext⟩ := h
    rw [denotes_cons_iff hplain, branches]
    unfold Child
    split_ifs at hnext ⊢ with hwild
    · rw [List.mem_flatMap]
      constructor
      · intro ⟨child, ⟨p, hp, hchild⟩, hval⟩
        exact ⟨p, hp, (ih (hnext p hp)).mp (hchild ▸ hval)⟩
      · intro ⟨p, hp, hval⟩
        exact ⟨p.2, ⟨p, hp, rfl⟩, (ih (hnext p hp)).mpr hval⟩
    · cases hget : obj.get propKey with
      | none => simp
      | some child =>
        rw [hget] at hnext
        have hone : (∃ c, some child = some c ∧ Denotes rest c val) ↔ Denotes rest child val := by simp
        rw [hone]
        cases child with
        | array vec =>
          dsimp only at hnext ⊢
          rw [denotes_array_iff, List.mem_flatMap]
          exact exists_congr fun item => and_congr_right fun hmem => ih (hnext item hmem)
        | _ => exact ih hnext

end MojDbPropExtractor

/-! ## Text services that fail -/

/-- The text services of one locale with their errors: a text that is no UTF-8 has neither a sort key nor words
(`MojErrDbUnicode`). -/
structure MojDbTextServices where
  sortKey : MojDbCollationStrength → MojString → Except MojErr MojString
  words : MojString → Except MojErr (List MojString)

namespace MojDbTextServices

open MojDbPropExtractor

/-- `MojDbTextCollator::sortKey`, when there is a collator. -/
def collate (services : MojDbTextServices) (coll : Option MojDbCollationStrength) (s : MojString) :
    Except MojErr MojString :=
  match coll with
  | some strength => services.sortKey strength s
  | none => .ok s

/-- The strings that a text is indexed under. -/
def texts (services : MojDbTextServices) (e : MojDbPropExtractor) (s : MojString) : Except MojErr (List MojString) :=
  if e.tokenizer then do
    let words ← services.words s
    words.mapM (services.collate e.collation)
  else (services.collate e.collation s).map fun key => [key]

def lastVals (services : MojDbTextServices) (e : MojDbPropExtractor) : MojObject → Except MojErr (List MojDbKey)
  | .string s => (services.texts e s).map fun words => words.map fun w => (MojObject.string w).toBytes
  | val => .ok [val.toBytes]

/-- `handleVal` and `valsImpl`, which end with the first error. -/
def handleVal (services : MojDbTextServices) (e : MojDbPropExtractor) :
    List MojString → MojObject → Except MojErr (List MojDbKey)
  | [], val => services.lastVals e val
  | propKey :: rest, obj =>
    if propKey = WildcardKey then (obj.props.mapM fun p => services.handleVal e rest p.2).map List.flatten
    else
      match obj.get propKey with
      | none => .ok e.default.elems
      | some (.array vec) => (vec.mapM (services.handleVal e rest)).map List.flatten
      | some val => services.handleVal e rest val

/-- `MojDbPropExtractor::vals` and `MojDbMultiExtractor::vals`. -/
def vals (services : MojDbTextServices) (obj : MojObject) : MojDbExtractor → Except MojErr KeySet
  | .prop e => (services.handleVal e e.prop obj).map .ofList
  | .multi _ _ extractors =>
    (extractors.mapM fun e => services.handleVal e e.prop obj).map fun keys => .ofList keys.flatten

/-- The services on the texts that they take. -/
def total (services : MojDbTextServices) : MojDbText where
  sortKey strength s := (services.sortKey strength s).toOption.getD s
  words s := (services.words s).toOption.getD []

/-- What a branch of the walk gives. -/
def branchVals (services : MojDbTextServices) (e : MojDbPropExtractor) : Option MojObject → Except MojErr (List MojDbKey)
  | none => .ok e.default.elems
  | some val => services.lastVals e val

variable {services : MojDbTextServices} {e : MojDbPropExtractor} {obj : MojObject}

/-- By induction on the path: the walk is one loop over its branches. -/
theorem handleVal_eq {path : List MojString} :
    services.handleVal e path obj = ((branches path obj).mapM (services.branchVals e)).map List.flatten := by
  have hloop : ∀ {α : Type} (xs : List α) (f : α → List (Option MojObject)),
      (xs.mapM fun x => ((f x).mapM (services.branchVals e)).map List.flatten).map List.flatten =
        ((xs.flatMap f).mapM (services.branchVals e)).map List.flatten := by
    intro α xs f
    rw [mapM_map, mapM_flatMap]
    cases xs.mapM fun x => (f x).mapM (services.branchVals e) with
    | error err => rfl
    | ok keys => exact congrArg Except.ok List.flatten_flatten.symm
  have hone : ∀ b, services.branchVals e b = ([b].mapM (services.branchVals e)).map List.flatten := by
    intro b
    rw [List.mapM_cons]
    cases services.branchVals e b with
    | error err => rfl
    | ok keys => exact congrArg Except.ok (List.append_nil keys).symm
  induction path generalizing obj with
  | nil => exact hone (some obj)
  | cons propKey rest ih =>
    rw [handleVal, branches]
    split_ifs with hwild
    · simp only [ih]
      exact hloop obj.props fun p => branches rest p.2
    · cases obj.get propKey with
      | none => exact hone none
      | some child =>
        cases child with
        | array vec =>
          have hih : services.handleVal e rest = fun item =>
              ((branches rest item).mapM (services.branchVals e)).map List.flatten := funext fun item => ih
          dsimp only
          rw [hih]
          exact hloop vec (branches rest)
        | _ => exact ih

theorem total_sortKey {strength : MojDbCollationStrength} {s key : MojString} (h : services.sortKey strength s = .ok key) :
    services.total.sortKey strength s = key := by
  simp [total, h, Except.toOption]

theorem total_words {s : MojString} {ws : List MojString} (h : services.words s = .ok ws) :
    services.total.words s = ws := by
  simp [total, h, Except.toOption]

/-- A text that the services take has the parts that it has for an extractor that cannot fail. -/
theorem lastVals_total {val : MojObject} {keys : List MojDbKey} (h : services.lastVals e val = .ok keys) :
    e.lastVals services.total val = keys := by
  have hcollate : ∀ s key, services.collate e.collation s = .ok key →
      MojDbKey.assign services.total e.collation (.string s) = (MojObject.string key).toBytes := by
    intro s key hkey
    unfold collate at hkey
    unfold MojDbKey.assign MojDbText.collate
    cases hcoll : e.collation with
    | none =>
      rw [hcoll] at hkey
      rw [Except.ok.inj hkey]
    | some strength =>
      rw [hcoll] at hkey
      rw [← total_sortKey hkey]
  cases val with
  | string s =>
    obtain ⟨words, hwords, rfl⟩ := map_eq_ok h
    unfold texts at hwords
    unfold MojDbPropExtractor.lastVals
    split_ifs at hwords ⊢ with htok
    · obtain ⟨ws, hws, hmap⟩ := bind_eq_ok.mp hwords
      have hall := mapM_eq_ok.mp hmap
      dsimp only
      rw [total_words hws]
      clear hws hwords hmap h
      induction hall with
      | nil => rfl
      | cons hw _ ih => rw [List.map_cons, List.map_cons, ih, hcollate _ _ hw]
    · obtain ⟨key, hkey, rfl⟩ := map_eq_ok hwords
      rw [hcollate s key hkey]
      rfl
  | _ =>
    rw [← Except.ok.inj h]
    cases hcoll : e.collation <;> simp [MojDbPropExtractor.lastVals, MojDbKey.assign, MojDbText.collate, hcoll]

end MojDbTextServices

/-! ## The parts -/

namespace MojDbPropExtractor

theorem handleVal_branches {text : MojDbText} {e : MojDbPropExtractor} {path : List MojString} {obj : MojObject} :
    e.handleVal text path obj = (branches path obj).flatMap fun b => b.elim e.default.elems (e.lastVals text) := by
  induction path generalizing obj with
  | nil => exact (List.append_nil _).symm
  | cons propKey rest ih =>
    have hih : handleVal text e rest = fun item =>
        (branches rest item).flatMap fun b => b.elim e.default.elems (e.lastVals text) := funext fun item => ih
    rw [handleVal, branches]
    split_ifs with hwild
    · simp only [ih, List.flatMap_assoc]
    · cases obj.get propKey with
      | none => exact (List.append_nil _).symm
      | some child =>
        cases child with
        | array vec =>
          dsimp only
          rw [hih, List.flatMap_assoc]
        | _ => exact ih

end MojDbPropExtractor

namespace MojDbTextServices

open MojDbPropExtractor

section

variable {services : MojDbTextServices} {e : MojDbPropExtractor} {obj : MojObject} {key : MojDbKey}

theorem handleVal_total {path : List MojString} {keys : List MojDbKey}
    (h : services.handleVal e path obj = .ok keys) : e.handleVal services.total path obj = keys := by
  rw [services.handleVal_eq] at h
  obtain ⟨kss, hkss, rfl⟩ := map_eq_ok h
  rw [MojDbPropExtractor.handleVal_branches]
  generalize branches path obj = bs at hkss
  have hall := mapM_eq_ok.mp hkss
  clear h hkss
  induction hall with
  | nil => rfl
  | @cons b ks bs kss hb _ ih =>
    rw [List.flatMap_cons, List.flatten_cons, ih]
    cases b with
    | none => rw [← Except.ok.inj hb]; rfl
    | some val => rw [Option.elim, lastVals_total hb]

/-- **What an index takes** from an object all of whose texts the services take is what it takes with services that
cannot fail. -/
theorem vals_total {extractor : MojDbExtractor} {keys : KeySet} (h : services.vals obj extractor = .ok keys) :
    extractor.vals services.total obj = keys := by
  cases extractor with
  | prop e =>
    obtain ⟨ks, hks, rfl⟩ := map_eq_ok h
    rw [← handleVal_total hks]
    rfl
  | multi name collation extractors =>
    obtain ⟨kss, hkss, rfl⟩ := map_eq_ok h
    ext key
    simp only [MojDbExtractor.vals, MojDbPropExtractor.vals, SortedSet.mem_ofList, List.mem_flatMap, List.mem_flatten,
      mem_of_mapM hkss, ← SortedSet.mem_def]
    constructor
    · rintro ⟨e, he, hkey⟩
      obtain ⟨ks, hks⟩ := returns_mapM.mp ⟨kss, hkss⟩ e he
      exact ⟨ks, ⟨e, he, hks⟩, handleVal_total hks ▸ hkey⟩
    · rintro ⟨ks, ⟨e, he, hks⟩, hkey⟩
      exact ⟨e, he, (handleVal_total hks).symm ▸ hkey⟩

theorem mem_vals_multi {name : MojString} {collation : Option MojDbCollationStrength}
    {extractors : List MojDbPropExtractor} {keys : KeySet}
    (h : services.vals obj (.multi name collation extractors) = .ok keys) :
    key ∈ keys ↔ ∃ e ∈ extractors, ∃ ks, services.vals obj (.prop e) = .ok ks ∧ key ∈ ks := by
  obtain ⟨kss, hkss, rfl⟩ := map_eq_ok h
  simp only [SortedSet.mem_ofList, List.mem_flatten, mem_of_mapM hkss]
  constructor
  · rintro ⟨ks, ⟨e, he, hks⟩, hkey⟩
    exact ⟨e, he, .ofList ks, congrArg (Except.map SortedSet.ofList) hks, SortedSet.mem_ofList.mpr hkey⟩
  · rintro ⟨e, he, set, hset, hkey⟩
    obtain ⟨ks, hks, rfl⟩ := map_eq_ok hset
    exact ⟨ks, ⟨e, he, hks⟩, SortedSet.mem_ofList.mp hkey⟩

theorem returns_vals : Returns (services.vals obj (.prop e)) ↔
    ∀ val, some val ∈ branches e.prop obj → Returns (services.lastVals e val) := by
  rw [vals, returns_map, services.handleVal_eq, returns_map, returns_mapM]
  constructor
  · intro h val hval
    exact h (some val) hval
  · intro h b hb
    cases b with
    | none => exact returns_ok _
    | some val => exact h val hb

/-- Each branch gives the parts of its value, or those of the default. -/
theorem mem_vals {keys : KeySet} (h : services.vals obj (.prop e) = .ok keys) : key ∈ keys ↔
    (∃ val ks, some val ∈ branches e.prop obj ∧ services.lastVals e val = .ok ks ∧ key ∈ ks) ∨
      none ∈ branches e.prop obj ∧ key ∈ e.default := by
  obtain ⟨ks, hks, rfl⟩ := map_eq_ok h
  rw [services.handleVal_eq] at hks
  obtain ⟨kss, hkss, rfl⟩ := map_eq_ok hks
  simp only [SortedSet.mem_ofList, List.mem_flatten, mem_of_mapM hkss]
  constructor
  · rintro ⟨ks, ⟨b, hb, hks⟩, hkey⟩
    cases b with
    | none =>
      rw [← Except.ok.inj hks] at hkey
      exact .inr ⟨hb, hkey⟩
    | some val => exact .inl ⟨val, ks, hb, hks, hkey⟩
  · intro h
    cases h with
    | inl h =>
      obtain ⟨val, ks, hval, hks, hkey⟩ := h
      exact ⟨ks, ⟨some val, hval, hks⟩, hkey⟩
    | inr h => exact ⟨e.default.elems, ⟨none, h.1, rfl⟩, h.2⟩

end

/-- The part is one of a value that the path denotes. -/
def OfDenoted (services : MojDbTextServices) (e : MojDbPropExtractor) (obj : MojObject) (key : MojDbKey) : Prop :=
  ∃ val keys, Denotes e.prop obj val ∧ services.lastVals e val = .ok keys ∧ key ∈ keys

/-- The part is one of a default value, collated or tokenized like any other value. -/
def OfDefault (services : MojDbTextServices) (e : MojDbPropExtractor) (defaults : List MojObject) (key : MojDbKey) :
    Prop :=
  ∃ val ∈ defaults, ∃ keys, services.lastVals e val = .ok keys ∧ key ∈ keys

/-- There are parts, and they are those of the values that the path denotes, and those of the defaults when it denotes
none. -/
def Exact (services : MojDbTextServices) (e : MojDbPropExtractor) (defaults : List MojObject) (obj : MojObject) : Prop :=
  ∃ keys, services.vals obj (.prop e) = .ok keys ∧ ∀ key, key ∈ keys ↔
    OfDenoted services e obj key ∨ (¬∃ val, Denotes e.prop obj val) ∧ OfDefault services e defaults key

/-- The services take each text that the path denotes. When the path denotes a value, no branch misses a property, or the
defaults are parts of denoted values. When it denotes none, some branch misses a property and the strings among the
defaults are those that the collator and the tokenizer make of them, or no default has a part. -/
structure DefaultKept (services : MojDbTextServices) (e : MojDbPropExtractor) (defaults : List MojObject)
    (obj : MojObject) : Prop where
  taken : ∀ val, Denotes e.prop obj val → Returns (services.lastVals e val)
  denoted : (∃ val, Denotes e.prop obj val) → none ∈ branches e.prop obj →
    ∀ val ∈ defaults, OfDenoted services e obj val.toBytes
  missed : (¬∃ val, Denotes e.prop obj val) → none ∈ branches e.prop obj →
    ∀ s, .string s ∈ defaults ↔ ∃ d words, .string d ∈ defaults ∧ services.texts e d = .ok words ∧ s ∈ words
  empty : (¬∃ val, Denotes e.prop obj val) → none ∉ branches e.prop obj → ∀ key, ¬OfDefault services e defaults key

theorem eq_string_of_toBytes {val : MojObject} {s : MojString} (h : val.toBytes = (MojObject.string s).toBytes) :
    val = .string s := by
  rw [← MojObject.written_toBytes] at h
  have hwritten := (MojObject.toBytes_append_inj (MojObject.isDefined_written val) rfl
    (congrArg (· ++ []) h)).1
  cases val with
  | string t => exact hwritten
  | _ => cases hwritten

/-- The keys of the defaults are right exactly when their strings are. -/
theorem defaults_iff {services : MojDbTextServices} {e : MojDbPropExtractor} {defaults : List MojObject} :
    (∀ key, (∃ val ∈ defaults, key = val.toBytes) ↔ OfDefault services e defaults key) ↔
      ∀ s, .string s ∈ defaults ↔ ∃ d words, .string d ∈ defaults ∧ services.texts e d = .ok words ∧ s ∈ words := by
  have hraw : ∀ s, (∃ val ∈ defaults, (MojObject.string s).toBytes = val.toBytes) ↔ .string s ∈ defaults := by
    intro s
    constructor
    · intro ⟨val, hval, hkey⟩
      exact eq_string_of_toBytes hkey.symm ▸ hval
    · intro hs
      exact ⟨_, hs, rfl⟩
  have htexts : ∀ s, OfDefault services e defaults (MojObject.string s).toBytes ↔
      ∃ d words, .string d ∈ defaults ∧ services.texts e d = .ok words ∧ s ∈ words := by
    intro s
    constructor
    · intro ⟨val, hval, keys, hkeys, hkey⟩
      cases val with
      | string d =>
        obtain ⟨words, hwords, rfl⟩ := map_eq_ok hkeys
        obtain ⟨w, hw, heq⟩ := List.mem_map.mp hkey
        exact ⟨d, words, hval, hwords, MojObject.string.inj (eq_string_of_toBytes heq) ▸ hw⟩
      | _ =>
        rw [← Except.ok.inj hkeys, List.mem_singleton] at hkey
        cases eq_string_of_toBytes hkey.symm
    · intro ⟨d, words, hd, hwords, hs⟩
      exact ⟨_, hd, _, congrArg (Except.map _) hwords, List.mem_map_of_mem hs⟩
  constructor
  · intro h s
    rw [← hraw, h, htexts]
  · intro h key
    constructor
    · intro ⟨val, hval, hkey⟩
      cases val with
      | string s => exact hkey ▸ (htexts s).mpr ((h s).mp hval)
      | _ => exact ⟨_, hval, _, rfl, List.mem_singleton.mpr hkey⟩
    · intro hkey
      obtain ⟨val, hval, keys, hkeys, hmem⟩ := id hkey
      cases val with
      | string d =>
        obtain ⟨words, hwords, rfl⟩ := map_eq_ok hkeys
        obtain ⟨w, hw, rfl⟩ := List.mem_map.mp hmem
        exact ⟨_, (h w).mpr ⟨d, words, hval, hwords, hw⟩, rfl⟩
      | _ => exact ⟨_, hval, List.mem_singleton.mp (Except.ok.inj hkeys ▸ hmem)⟩

/-- **The parts are right** when the texts and the defaults are, in an object whose arrays are all split. -/
theorem exact_iff {services : MojDbTextServices} {obj : MojObject} {c : PropConfig} {defaultConfig : Option ExtractorConfig}
    (hsplit : Split (fromObjectImpl c defaultConfig).prop obj) :
    Exact services (fromObjectImpl c defaultConfig) (allDefaults c defaultConfig) obj ↔
      DefaultKept services (fromObjectImpl c defaultConfig) (allDefaults c defaultConfig) obj := by
  generalize he : fromObjectImpl c defaultConfig = e at hsplit ⊢
  generalize hdefaults : allDefaults c defaultConfig = defaults
  have hdefault : ∀ key, key ∈ e.default ↔ ∃ val ∈ defaults, key = val.toBytes := by
    intro key
    rw [← he, ← hdefaults, fromObjectImpl, SortedSet.mem_ofList, List.mem_map]
    exact exists_congr fun val => and_congr_right fun _ => eq_comm
  have hreturns : Returns (services.vals obj (.prop e)) ↔
      ∀ val, Denotes e.prop obj val → Returns (services.lastVals e val) :=
    returns_vals.trans (forall_congr' fun val => imp_congr_left (denotes_iff_branches hsplit).symm)
  by_cases htaken : ∀ val, Denotes e.prop obj val → Returns (services.lastVals e val)
  case neg => exact iff_of_false (fun h => htaken (hreturns.mp ⟨_, h.choose_spec.1⟩)) fun h => htaken h.taken
  obtain ⟨keys, hkeys⟩ := hreturns.mpr htaken
  have hvals : ∀ key, key ∈ keys ↔
      OfDenoted services e obj key ∨ none ∈ branches e.prop obj ∧ ∃ val ∈ defaults, key = val.toBytes := by
    intro key
    rw [mem_vals hkeys, hdefault]
    refine or_congr_left (exists_congr fun val => exists_congr fun ks => ?_)
    rw [denotes_iff_branches hsplit]
  have hall : Exact services e defaults obj ↔ ∀ key,
      OfDenoted services e obj key ∨ none ∈ branches e.prop obj ∧ (∃ val ∈ defaults, key = val.toBytes) ↔
        OfDenoted services e obj key ∨ (¬∃ val, Denotes e.prop obj val) ∧ OfDefault services e defaults key := by
    simp only [Exact, hkeys, Except.ok.injEq, exists_eq_left', hvals]
  rw [hall]
  by_cases hsome : ∃ val, Denotes e.prop obj val
  · simp only [hsome, not_true_eq_false, false_and, or_false, or_iff_left_iff_imp]
    constructor
    · intro h
      exact ⟨htaken, fun _ hmiss val hval => h _ ⟨hmiss, val, hval, rfl⟩, fun hno => absurd hsome hno,
        fun hno => absurd hsome hno⟩
    · intro h key ⟨hmiss, val, hval, hkey⟩
      exact hkey ▸ h.denoted hsome hmiss val hval
  · have hnone : ∀ key, ¬OfDenoted services e obj key := by
      intro key ⟨val, _, hval, _⟩
      exact hsome ⟨val, hval⟩
    simp only [hnone, hsome, not_false_eq_true, true_and, false_or]
    by_cases hmiss : none ∈ branches e.prop obj
    · simp only [hmiss, true_and]
      rw [defaults_iff]
      constructor
      · intro h
        exact ⟨htaken, fun hyes => absurd hyes hsome, fun _ _ => h, fun _ hno => absurd hmiss hno⟩
      · intro h
        exact h.missed hsome hmiss
    · simp only [hmiss, false_and, false_iff]
      constructor
      · intro h
        exact ⟨htaken, fun hyes => absurd hyes hsome, fun _ hyes => absurd hyes hmiss, fun _ _ => h⟩
      · intro h
        exact h.empty hsome hmiss

end MojDbTextServices

namespace MojDbMultiExtractor

open MojDbPropExtractor MojDbTextServices

/-- `fromObject`: the included properties take their defaults from the extractor. -/
def fromObject (name : MojString) (obj : ExtractorConfig) (include_ : List PropConfig) : MojDbExtractor :=
  .multi name obj.collate (include_.map fun c => fromObjectImpl c (some obj))

/-- **The parts of an extractor**: those of what its path denotes, when the services take its texts and its defaults are
kept; and those of all properties that it includes. -/
theorem parts_exact_iff (services : MojDbTextServices) :
    (∀ (c : PropConfig) (defaultConfig : Option ExtractorConfig) (obj : MojObject),
      Split (fromObjectImpl c defaultConfig).prop obj →
        (Exact services (fromObjectImpl c defaultConfig) (allDefaults c defaultConfig) obj ↔
          DefaultKept services (fromObjectImpl c defaultConfig) (allDefaults c defaultConfig) obj)) ∧
      ∀ (name : MojString) (config : ExtractorConfig) (include_ : List PropConfig) (obj : MojObject),
        (Returns (services.vals obj (fromObject name config include_)) ↔
          ∀ c ∈ include_, Returns (services.vals obj (.prop (fromObjectImpl c (some config))))) ∧
        ∀ keys, services.vals obj (fromObject name config include_) = .ok keys → ∀ key, key ∈ keys ↔
          ∃ c ∈ include_, ∃ ks, services.vals obj (.prop (fromObjectImpl c (some config))) = .ok ks ∧ key ∈ ks := by
  refine ⟨fun c defaultConfig obj hsplit => exact_iff hsplit, fun name config include_ obj => ⟨?_, ?_⟩⟩
  · simp only [fromObject, MojDbTextServices.vals, returns_map, returns_mapM, List.forall_mem_map]
  · intro keys hkeys key
    rw [mem_vals_multi hkeys]
    simp only [List.mem_map, exists_exists_and_eq_and]

/-- `Q R` -/
def twoWords : MojString := ⟨[81, 32, 82], by decide⟩

/-- Two words in a text of two words. -/
def twoWordText : MojDbTextServices where
  sortKey _ s := .ok s
  words s := .ok (if s = twoWords then [⟨[81], by decide⟩, ⟨[82], by decide⟩] else [s])

/-- A tokenized property `N` with the default `Q R`. -/
def tokenized : PropConfig where
  collate := none
  tokenize := true
  default := some (.string twoWords)
  name := ⟨[78], by decide⟩
  prop_ne_nil := by decide

theorem split_empty : Split (fromObjectImpl tokenized none).prop (.object []) := by
  have hprop : (fromObjectImpl tokenized none).prop = [tokenized.name] := by decide
  rw [hprop]
  exact ⟨rfl, trivial⟩

theorem parts_exact_iff_empty : Split (fromObjectImpl tokenized none).prop (.object []) ∧
    (Exact twoWordText (fromObjectImpl tokenized none) (allDefaults tokenized none) (.object []) ↔
      DefaultKept twoWordText (fromObjectImpl tokenized none) (allDefaults tokenized none) (.object [])) :=
  ⟨split_empty, (parts_exact_iff twoWordText).1 tokenized none (.object []) split_empty⟩

/-- An object without the property is indexed under the whole default, not under its words. -/
theorem not_exact_tokenized : ¬∀ (services : MojDbTextServices) (c : PropConfig) (defaultConfig : Option ExtractorConfig)
    (obj : MojObject), Exact services (fromObjectImpl c defaultConfig) (allDefaults c defaultConfig) obj := by
  intro h
  have hkept := (exact_iff split_empty).mp (h twoWordText tokenized none (.object []))
  have hprop : (fromObjectImpl tokenized none).prop = [tokenized.name] := by decide
  have hnone : ¬∃ val, Denotes (fromObjectImpl tokenized none).prop (.object []) val := by
    intro ⟨val, hval⟩
    rw [hprop, denotes_cons_iff rfl] at hval
    obtain ⟨child, hchild, -⟩ := hval
    cases hchild
  have hmiss : none ∈ branches (fromObjectImpl tokenized none).prop (.object []) := by
    rw [hprop]
    exact List.mem_singleton_self _
  obtain ⟨d, words, hd, hwords, hmem⟩ := (hkept.missed hnone hmiss twoWords).mp (List.mem_singleton_self _)
  obtain rfl : d = twoWords := MojObject.string.inj (List.mem_singleton.mp hd)
  have hwords' : twoWordText.texts (fromObjectImpl tokenized none) twoWords =
      .ok [⟨[81], by decide⟩, ⟨[82], by decide⟩] := rfl
  rw [hwords', Except.ok.injEq] at hwords
  subst hwords
  revert hmem
  decide

end MojDbMultiExtractor

end Db8
