import Db8.Core.MojJsonCode
import Db8.Db.MojBase64
import Db8.Db.MojDbPurge

/-!
# Db.MojDbQueryObject

A query with the members that `toObject` writes, and the object it writes.

* `MojDbSearchQuery` — a query with its kind, its select list and its filter clauses.
* `toVisits`         — the calls of `toObject(MojObjectVisitor&)`.
* `Builds`           — calls that hand a builder one value, and how objects and arrays of such values are built.
* `toObject_inj`     — what two queries have in common whose objects are the same but for limit and page.
-/

namespace Db8

open Lib MojObject
open MojDbIdGenerator (MojBase64Encode)

namespace MojDbQuery

/-- `select` -/
def SelectKey : MojString := ⟨[115, 101, 108, 101, 99, 116], by decide⟩
/-- `from` -/
def FromKey : MojString := ⟨[102, 114, 111, 109], by decide⟩
/-- `where` -/
def WhereKey : MojString := ⟨[119, 104, 101, 114, 101], by decide⟩
/-- `filter` -/
def FilterKey : MojString := ⟨[102, 105, 108, 116, 101, 114], by decide⟩
/-- `orderBy` -/
def OrderByKey : MojString := ⟨[111, 114, 100, 101, 114, 66, 121], by decide⟩
/-- `distinct` -/
def DistinctKey : MojString := ⟨[100, 105, 115, 116, 105, 110, 99, 116], by decide⟩
/-- `desc` -/
def DescKey : MojString := ⟨[100, 101, 115, 99], by decide⟩
/-- `limit` -/
def LimitKey : MojString := ⟨[108, 105, 109, 105, 116], by decide⟩
/-- `page` -/
def PageKey : MojString := ⟨[112, 97, 103, 101], by decide⟩
/-- `prop` -/
def PropKey : MojString := ⟨[112, 114, 111, 112], by decide⟩
/-- `op` -/
def OpKey : MojString := ⟨[111, 112], by decide⟩
/-- `val` -/
def ValKey : MojString := ⟨[118, 97, 108], by decide⟩
/-- `collate` -/
def CollateKey : MojString := ⟨[99, 111, 108, 108, 97, 116, 101], by decide⟩

/-- `s_ops`: `=`, `!=`, `<`, `<=`, `>`, `>=`, `%`, `?` and `%%`. -/
def opToString : CompOp → Option MojString
  | .opNone => none
  | .opEq => some ⟨[61], by decide⟩
  | .opNotEq => some ⟨[33, 61], by decide⟩
  | .opLessThan => some ⟨[60], by decide⟩
  | .opLessThanEq => some ⟨[60, 61], by decide⟩
  | .opGreaterThan => some ⟨[62], by decide⟩
  | .opGreaterThanEq => some ⟨[62, 61], by decide⟩
  | .opPrefix => some ⟨[37], by decide⟩
  | .opSearch => some ⟨[63], by decide⟩
  | .opSubString => some ⟨[37, 37], by decide⟩

/-- `s_collStrings`. -/
def collationToString : MojDbCollationStrength → MojString
  | .primary => ⟨[112, 114, 105, 109, 97, 114, 121], by decide⟩
  | .secondary => ⟨[115, 101, 99, 111, 110, 100, 97, 114, 121], by decide⟩
  | .tertiary => ⟨[116, 101, 114, 116, 105, 97, 114, 121], by decide⟩
  | .quaternary => ⟨[113, 117, 97, 116, 101, 114, 110, 97, 114, 121], by decide⟩
  | .identical => ⟨[105, 100, 101, 110, 116, 105, 99, 97, 108], by decide⟩

end MojDbQuery

/-- A query with its kind and select list. The clauses are listed as the hash maps that hold them are walked. -/
structure MojDbSearchQuery extends MojDbQuery where
  fromType : MojString
  selectProps : SortedSet MojString
  immediateReturn : Bool
  filter_nodup : (filterClauses.map Prod.fst).Nodup
  upper_none : ∀ p ∈ whereClauses ++ filterClauses, p.2.upperOp = .opNone → p.2.upperVal = .undefined
  /-- The values are maps: their properties are in order. -/
  vals_ordered : ∀ p ∈ whereClauses ++ filterClauses, p.2.lowerVal.isOrdered = true ∧ p.2.upperVal.isOrdered = true

namespace MojDbSearchQuery

open MojDbQuery

/-- One part of a clause. -/
structure ClausePart where
  propName : MojString
  op : CompOp
  val : MojObject
  coll : Option MojDbCollationStrength

/-- The parts of a clause that have an operator, the lower one first. -/
def clauseParts (p : MojString × WhereClause) : List ClausePart :=
  (if p.2.lowerOp ≠ .opNone then [⟨p.1, p.2.lowerOp, p.2.lowerVal, p.2.collation⟩] else []) ++
    (if p.2.upperOp ≠ .opNone then [⟨p.1, p.2.upperOp, p.2.upperVal, p.2.collation⟩] else [])

def collateVisits : Option MojDbCollationStrength → List Visit
  | none => []
  | some coll => [.propName CollateKey, .stringValue (collationToString coll)]

def appendClause (part : ClausePart) : Except MojErr (List Visit) :=
  match opToString part.op with
  | none => .error .dbInvalidQueryOp
  | some opStr => .ok ([.beginObject, .propName PropKey, .stringValue part.propName, .propName OpKey, .stringValue opStr,
      .propName ValKey] ++ part.val.visit ++ collateVisits part.coll ++ [.endObject])

def appendClauses (propName : MojString) (map : WhereMap) : Except MojErr (List Visit) := do
  let visits ← (map.flatMap clauseParts).mapM appendClause
  return [.propName propName, .beginArray] ++ visits.flatten ++ [.endArray]

/-- The clauses, if there are any. -/
def clausesVisits (propName : MojString) (map : WhereMap) : Except MojErr (List Visit) :=
  if map.isEmpty then .ok [] else appendClauses propName map

def stringVisits (propName val : MojString) : List Visit := if val.isEmpty then [] else [.propName propName, .stringValue val]

theorem zero_notMem_pageText (page : MojDbKey) : 0 ∉ MojBase64Encode page false := by
  simpa [MojBase64Encode, MojDbIdGenerator.padding] using MojDbIdGenerator.zero_notMem_base64Encode page

/-- `Page::toObject`. -/
def pageObject (page : MojDbKey) : MojObject := .string ⟨MojBase64Encode page false, zero_notMem_pageText page⟩

variable (q : MojDbSearchQuery)

def selectVisits : List Visit :=
  if q.selectProps.isEmpty then []
  else [.propName SelectKey, .beginArray] ++ q.selectProps.elems.map Visit.stringValue ++ [.endArray]

def toVisits : Except MojErr (List Visit) := do
  let whereVisits ← clausesVisits WhereKey q.whereClauses
  let filterVisits ← clausesVisits FilterKey q.filterClauses
  return [.beginObject] ++ q.selectVisits ++ [.propName FromKey, .stringValue q.fromType] ++ whereVisits ++ filterVisits ++
    stringVisits OrderByKey q.orderProp ++ stringVisits DistinctKey q.distinct ++
    (if q.desc then [.propName DescKey, .boolValue true] else []) ++
    (if q.limit ≠ LimitDefault then [.propName LimitKey, .intValue (Int64.ofNat q.limit)] else []) ++
    (if q.page ≠ [] then .propName PageKey :: (pageObject q.page).visit else []) ++ [.endObject]

def toObject : Except MojErr MojObject := do
  let visits ← q.toVisits
  return MojObjectBuilder.build visits

end MojDbSearchQuery

/-! ## Values from their parts -/

namespace MojObjectBuilder

/-- The calls hand the builder the value. -/
def Builds (visits : List Visit) (obj : MojObject) : Prop := ∀ b : MojObjectBuilder, b.visit visits = b.value obj

theorem Builds.build {visits : List Visit} {obj : MojObject} (h : Builds visits obj) : build visits = obj := by
  rw [MojObjectBuilder.build, h]
  rfl

/-- The properties are put one after the other. -/
theorem visit_entries (es : List (MojString × List Visit × MojObject)) (hes : ∀ e ∈ es, Builds e.2.1 e.2.2)
    (done : List (MojString × MojObject)) (stack : List Rec) (obj : MojObject) (outer name : MojString) :
    ∃ name', visit ⟨⟨.object done, outer⟩ :: stack, obj, name⟩ (es.flatMap fun e => .propName e.1 :: e.2.1) =
      ⟨⟨.object (putAll done (es.map fun e => (e.1, e.2.2))), outer⟩ :: stack, obj, name'⟩ := by
  induction es generalizing done name with
  | nil => exact ⟨name, rfl⟩
  | cons e es ih =>
    have hval := hes e List.mem_cons_self ⟨⟨.object done, outer⟩ :: stack, obj, e.1⟩
    obtain ⟨name', hrest⟩ := ih (fun e he => hes e (List.mem_cons_of_mem _ he)) (putProp e.1 e.2.2 done) e.1
    refine ⟨name', ?_⟩
    rw [List.flatMap_cons, visit_append, visit_cons]
    change visit (visit ⟨⟨.object done, outer⟩ :: stack, obj, e.1⟩ e.2.1) _ = _
    rw [hval]
    exact hrest

theorem visit_items (xs : List (List Visit × MojObject)) (hxs : ∀ x ∈ xs, Builds x.1 x.2) (done : List MojObject)
    (stack : List Rec) (obj : MojObject) (outer name : MojString) :
    visit ⟨⟨.array done, outer⟩ :: stack, obj, name⟩ (xs.flatMap Prod.fst) =
      ⟨⟨.array (done ++ xs.map Prod.snd), outer⟩ :: stack, obj, name⟩ := by
  induction xs generalizing done with
  | nil => simp [visit]
  | cons x xs ih =>
    rw [List.flatMap_cons, visit_append, hxs x List.mem_cons_self]
    change visit ⟨⟨.array (done ++ [x.2]), outer⟩ :: stack, obj, name⟩ _ = _
    rw [ih fun y hy => hxs y (List.mem_cons_of_mem _ hy), List.map_cons, List.append_assoc, List.singleton_append]

/-- A value with calls that build it. -/
structure Built where
  visits : List Visit
  obj : MojObject
  builds : Builds visits obj
  isDefined : obj.isDefined = true

namespace Built

def string (s : MojString) : Built := ⟨[.stringValue s], .string s, fun _ => rfl, rfl⟩

def bool (b : Bool) : Built := ⟨[.boolValue b], .bool b, fun _ => rfl, rfl⟩

def int (i : Int64) : Built := ⟨[.intValue i], .int i, fun _ => rfl, rfl⟩

def value (val : MojObject) (h : val.isOrdered = true) : Built :=
  ⟨val.visit, val.written, buildsValue h, isDefined_written val⟩

theorem isDefined_putAll {done ps : List (MojString × MojObject)} (hdone : isDefinedProps done = true)
    (hps : ∀ p ∈ ps, p.2.isDefined = true) : isDefinedProps (putAll done ps) = true := by
  induction ps generalizing done with
  | nil => exact hdone
  | cons p ps ih =>
    refine ih ?_ fun q hq => hps q (List.mem_cons_of_mem _ hq)
    rw [isDefinedProps_iff] at hdone ⊢
    intro q hq
    cases mem_putProp hq with
    | inl he => exact he ▸ hps p List.mem_cons_self
    | inr hq => exact hdone q hq

def object (es : List (MojString × Built)) : Built where
  visits := .beginObject :: es.flatMap (fun e => .propName e.1 :: e.2.visits) ++ [.endObject]
  obj := .object (putAll [] (es.map fun e => (e.1, e.2.obj)))
  builds := by
    intro b
    obtain ⟨stack, obj, name⟩ := b
    obtain ⟨name', hes⟩ := visit_entries (es.map fun e => (e.1, e.2.visits, e.2.obj))
      (by
        intro e he
        obtain ⟨e, -, rfl⟩ := List.mem_map.mp he
        exact e.2.builds) [] stack obj name name
    rw [List.flatMap_map, List.map_map] at hes
    rw [visit_append, visit_cons]
    change visit (visit ⟨⟨.object [], name⟩ :: stack, obj, name⟩ _) [.endObject] = _
    rw [hes]
    rfl
  isDefined := by
    refine isDefined_putAll rfl fun p hp => ?_
    obtain ⟨e, -, rfl⟩ := List.mem_map.mp hp
    exact e.2.isDefined

def array (xs : List Built) : Built where
  visits := .beginArray :: xs.flatMap Built.visits ++ [.endArray]
  obj := .array (xs.map Built.obj)
  builds := by
    intro b
    obtain ⟨stack, obj, name⟩ := b
    have hxs := visit_items (xs.map fun x => (x.visits, x.obj))
      (by
        intro x hx
        obtain ⟨x, -, rfl⟩ := List.mem_map.mp hx
        exact x.builds) [] stack obj name name
    rw [List.flatMap_map, List.map_map] at hxs
    rw [visit_append, visit_cons]
    change visit (visit ⟨⟨.array [], name⟩ :: stack, obj, name⟩ _) [.endArray] = _
    rw [hxs]
    rfl
  isDefined := by
    rw [MojObject.isDefined, isDefinedVec_iff]
    intro x hx
    obtain ⟨x, -, rfl⟩ := List.mem_map.mp hx
    exact x.isDefined

/-- A property that is only there if the flag is set. -/
def entryIf (flag : Bool) (key : MojString) (val : Built) : List (MojString × Built) := if flag then [(key, val)] else []

def props (es : List (MojString × Built)) : List (MojString × MojObject) := es.map fun e => (e.1, e.2.obj)

theorem getProp_entryIf (flag : Bool) (key key' : MojString) (val : Built) :
    getProp key' (props (entryIf flag key val)) = if flag = true ∧ key = key' then some val.obj else none := by
  unfold entryIf
  cases flag with
  | true => by_cases hkey : key = key' <;> simp [props, getProp, hkey]
  | false => simp [props, getProp]

theorem get_object {es : List (MojString × Built)} (h : (es.map Prod.fst).Nodup) (key : MojString) :
    (object es).obj.get key = getProp key (props es) := by
  have hnodup : ((props es).map Prod.fst).Nodup := by
    rw [props, List.map_map]
    exact h
  change (MojObject.object (putAll [] (props es))).get key = _
  rw [get_eq_getProp]
  change getProp key (putAll [] (props es)) = _
  rw [getProp_putAll hnodup]
  simp [getProp]

end Built

end MojObjectBuilder

namespace MojDbSearchQuery

open MojDbQuery
open MojObjectBuilder (Built)
open MojObjectBuilder.Built (entryIf props)

/-! ## Clauses -/

/-- A part that `toObject` writes: its operator has a name, and its value is a map. -/
structure ClausePart.Written (part : ClausePart) : Prop where
  op_ne : part.op ≠ .opNone
  ordered : part.val.isOrdered = true

/-- The text of an operator; there is none for `OpNone`. -/
def opText (op : CompOp) : MojString := (opToString op).getD MojString.empty

theorem opToString_eq {op : CompOp} (h : op ≠ .opNone) : opToString op = some (opText op) := by
  cases op with
  | opNone => exact absurd rfl h
  | _ => rfl

theorem opText_inj {op op' : CompOp} (h : opText op = opText op') : op = op' := by
  cases op <;> cases op' <;> first | rfl | exact absurd h (by decide)

theorem collationToString_inj {c c' : MojDbCollationStrength} (h : collationToString c = collationToString c') : c = c' := by
  cases c <;> cases c' <;> first | rfl | exact absurd h (by decide)

def collateProps : Option MojDbCollationStrength → List (MojString × Built)
  | none => []
  | some coll => [(CollateKey, .string (collationToString coll))]

def partProps (part : ClausePart) (h : part.Written) : List (MojString × Built) :=
  [(PropKey, .string part.propName), (OpKey, .string (opText part.op)), (ValKey, .value part.val h.ordered)] ++
    collateProps part.coll

theorem appendClause_eq (part : ClausePart) (h : part.Written) :
    appendClause part = .ok (Built.object (partProps part h)).visits := by
  have hcoll : (collateProps part.coll).flatMap (fun e => .propName e.1 :: e.2.visits) = collateVisits part.coll := by
    cases part.coll with
    | none => rfl
    | some coll => rfl
  unfold appendClause
  rw [opToString_eq h.op_ne]
  simp only [Built.object, partProps, List.flatMap_append, hcoll]
  simp [Built.string, Built.value]

theorem nodup_partProps (part : ClausePart) (h : part.Written) : ((partProps part h).map Prod.fst).Nodup := by
  have hkeys : [PropKey, OpKey, ValKey, CollateKey].Nodup := by decide
  refine hkeys.sublist ?_
  unfold partProps
  cases part.coll with
  | none => exact .cons_cons _ (.cons_cons _ (.cons_cons _ (List.nil_sublist _)))
  | some coll => exact .refl _

/-- Two parts with the same object. -/
structure ClausePart.Same (part part' : ClausePart) : Prop where
  propName : part.propName = part'.propName
  op : part.op = part'.op
  val : part.val.written = part'.val.written
  coll : part.coll = part'.coll

theorem part_inj {part part' : ClausePart} (h : part.Written) (h' : part'.Written)
    (heq : (Built.object (partProps part h)).obj = (Built.object (partProps part' h')).obj) : part.Same part' := by
  have hget : ∀ key, getProp key (props (partProps part h)) = getProp key (props (partProps part' h')) := by
    intro key
    rw [← Built.get_object (nodup_partProps part h), heq, Built.get_object (nodup_partProps part' h')]
  have hprop : MojObject.string part.propName = .string part'.propName := Option.some.inj (hget PropKey)
  have hop : MojObject.string (opText part.op) = .string (opText part'.op) := Option.some.inj (hget OpKey)
  have hval : part.val.written = part'.val.written := Option.some.inj (hget ValKey)
  have hcoll := hget CollateKey
  refine ⟨MojObject.string.inj hprop, opText_inj (MojObject.string.inj hop), hval, ?_⟩
  unfold partProps at hcoll
  cases hc : part.coll with
  | none =>
    cases hc' : part'.coll with
    | none => rfl
    | some coll' =>
      rw [hc, hc'] at hcoll
      exact absurd hcoll nofun
  | some coll =>
    cases hc' : part'.coll with
    | none =>
      rw [hc, hc'] at hcoll
      exact absurd hcoll nofun
    | some coll' =>
      rw [hc, hc'] at hcoll
      have htext : MojObject.string (collationToString coll) = .string (collationToString coll') := Option.some.inj hcoll
      rw [collationToString_inj (MojObject.string.inj htext)]

/-- Two clauses that are written in the same way. -/
structure SameClause (p p' : MojString × WhereClause) : Prop where
  key : p.1 = p'.1
  lowerOp : p.2.lowerOp = p'.2.lowerOp
  upperOp : p.2.upperOp = p'.2.upperOp
  lowerVal : p.2.lowerVal.written = p'.2.lowerVal.written
  upperVal : p.2.upperVal.written = p'.2.upperVal.written
  collation : p.2.collation = p'.2.collation

theorem mem_clauseParts {p : MojString × WhereClause} {part : ClausePart} (h : part ∈ clauseParts p) :
    part.propName = p.1 ∧ part.op ≠ .opNone ∧ (part.val = p.2.lowerVal ∨ part.val = p.2.upperVal) := by
  unfold clauseParts at h
  cases List.mem_append.mp h with
  | inl h =>
    split_ifs at h with hop
    · cases List.mem_singleton.mp h
      exact ⟨rfl, hop, .inl rfl⟩
    · cases h
  | inr h =>
    split_ifs at h with hop
    · cases List.mem_singleton.mp h
      exact ⟨rfl, hop, .inr rfl⟩
    · cases h

theorem sameClause_of_parts {p p' : MojString × WhereClause} (hkey : p.1 = p'.1)
    (hnone : p.2.upperOp = .opNone → p.2.upperVal = .undefined) (hnone' : p'.2.upperOp = .opNone → p'.2.upperVal = .undefined)
    (h : List.Forall₂ ClausePart.Same (clauseParts p) (clauseParts p')) : SameClause p p' := by
  have hlower := p.2.valid.lower_none
  have hlower' := p'.2.valid.lower_none
  unfold clauseParts at h
  by_cases hl : p.2.lowerOp = .opNone
  · have hu : p.2.upperOp ≠ .opNone := p.2.valid.some_op.resolve_left fun h => h hl
    by_cases hl' : p'.2.lowerOp = .opNone
    · have hu' : p'.2.upperOp ≠ .opNone := p'.2.valid.some_op.resolve_left fun h => h hl'
      simp only [hl, hl', hu, hu', ne_eq, not_true_eq_false, not_false_eq_true, if_true, if_false, List.nil_append] at h
      obtain ⟨hsame, -⟩ := List.forall₂_cons.mp h
      exact ⟨hkey, hl.trans hl'.symm, hsame.op, by rw [hlower hl, hlower' hl'], hsame.val, hsame.coll⟩
    · simp only [hl, hl', hu, ne_eq, not_true_eq_false, not_false_eq_true, if_true, if_false, List.nil_append,
        List.singleton_append] at h
      -- an upper operator is no lower one
      obtain ⟨hsame, -⟩ := List.forall₂_cons.mp h
      have hop : p.2.upperOp = p'.2.lowerOp := hsame.op
      have hlt := (p.2.valid.upper_lt).resolve_left hu
      have hnot := p'.2.valid.lower_not_lt
      rw [hop] at hlt
      exact absurd hlt (not_or.mpr hnot)
  · by_cases hl' : p'.2.lowerOp = .opNone
    · have hu' : p'.2.upperOp ≠ .opNone := p'.2.valid.some_op.resolve_left fun h => h hl'
      simp only [hl, hl', hu', ne_eq, not_true_eq_false, not_false_eq_true, if_true, if_false, List.nil_append,
        List.singleton_append] at h
      obtain ⟨hsame, -⟩ := List.forall₂_cons.mp h
      have hop : p.2.lowerOp = p'.2.upperOp := hsame.op
      have hlt := (p'.2.valid.upper_lt).resolve_left hu'
      have hnot := p.2.valid.lower_not_lt
      rw [← hop] at hlt
      exact absurd hlt (not_or.mpr hnot)
    · simp only [hl, hl', ne_eq, not_false_eq_true, if_true, List.singleton_append] at h
      obtain ⟨hsame, hrest⟩ := List.forall₂_cons.mp h
      by_cases hu : p.2.upperOp = .opNone
      · by_cases hu' : p'.2.upperOp = .opNone
        · exact ⟨hkey, hsame.op, hu.trans hu'.symm, hsame.val, by rw [hnone hu, hnone' hu'], hsame.coll⟩
        · simp [hu, hu'] at hrest
      · by_cases hu' : p'.2.upperOp = .opNone
        · simp [hu, hu'] at hrest
        · simp only [hu, hu', not_false_eq_true, if_true] at hrest
          obtain ⟨hupper, -⟩ := List.forall₂_cons.mp hrest
          exact ⟨hkey, hsame.op, hupper.op, hsame.val, hupper.val, hsame.coll⟩

theorem clauseParts_ne_nil (p : MojString × WhereClause) : clauseParts p ≠ [] := by
  unfold clauseParts
  cases p.2.valid.some_op with
  | inl h => simp [h]
  | inr h => simp [h]

/-- The parts of a property are those of its clause, and the others those of the other clauses. -/
theorem filter_parts {p : MojString × WhereClause} {map : WhereMap} (hnodup : ((p :: map).map Prod.fst).Nodup) :
    ((p :: map).flatMap clauseParts).filter (fun part => part.propName = p.1) = clauseParts p ∧
      ((p :: map).flatMap clauseParts).filter (fun part => ¬part.propName = p.1) = map.flatMap clauseParts := by
  have hown : ∀ part ∈ clauseParts p, part.propName = p.1 := fun part h => (mem_clauseParts h).1
  have hother : ∀ part ∈ map.flatMap clauseParts, ¬part.propName = p.1 := by
    intro part hpart he
    obtain ⟨q, hq, hmem⟩ := List.mem_flatMap.mp hpart
    rw [(mem_clauseParts hmem).1] at he
    exact (List.nodup_cons.mp hnodup).1 (List.mem_map.mpr ⟨q, hq, he⟩)
  rw [List.flatMap_cons, List.filter_append, List.filter_append]
  constructor
  · rw [List.filter_eq_self.mpr (by simpa using hown), List.filter_eq_nil_iff.mpr (by simpa using hother), List.append_nil]
  · rw [List.filter_eq_nil_iff.mpr (by simpa using hown), List.filter_eq_self.mpr (by simpa using hother), List.nil_append]

theorem forall₂_filter_propName {parts parts' : List ClausePart} (h : List.Forall₂ ClausePart.Same parts parts')
    (P : MojString → Bool) : List.Forall₂ ClausePart.Same (parts.filter fun part => P part.propName)
      (parts'.filter fun part => P part.propName) := by
  induction h with
  | nil => exact .nil
  | cons hsame _ ih =>
    rw [List.filter_cons, List.filter_cons, hsame.propName]
    split_ifs
    · exact .cons hsame ih
    · exact ih

/-- By induction on the clauses: the first part of the list is of the first clause, whose parts are all those of
its property. -/
theorem sameClauses_of_parts {map map' : WhereMap} (hnodup : (map.map Prod.fst).Nodup) (hnodup' : (map'.map Prod.fst).Nodup)
    (hnone : ∀ p ∈ map, p.2.upperOp = .opNone → p.2.upperVal = .undefined)
    (hnone' : ∀ p ∈ map', p.2.upperOp = .opNone → p.2.upperVal = .undefined)
    (h : List.Forall₂ ClausePart.Same (map.flatMap clauseParts) (map'.flatMap clauseParts)) :
    List.Forall₂ SameClause map map' := by
  induction map generalizing map' with
  | nil =>
    cases map' with
    | nil => exact .nil
    | cons p' map' =>
      have hlen := h.length_eq
      have hpos := List.length_pos_iff.mpr (clauseParts_ne_nil p')
      simp only [List.flatMap_nil, List.flatMap_cons, List.length_append, List.length_nil] at hlen
      omega
  | cons p map ih =>
    cases map' with
    | nil =>
      have hlen := h.length_eq
      have hpos := List.length_pos_iff.mpr (clauseParts_ne_nil p)
      simp only [List.flatMap_nil, List.flatMap_cons, List.length_append, List.length_nil] at hlen
      omega
    | cons p' map' =>
      have hkey : p.1 = p'.1 := by
        obtain ⟨part, parts, hparts⟩ := List.exists_cons_of_ne_nil (clauseParts_ne_nil p)
        obtain ⟨part', parts', hparts'⟩ := List.exists_cons_of_ne_nil (clauseParts_ne_nil p')
        rw [List.flatMap_cons, List.flatMap_cons, hparts, hparts'] at h
        have hsame := (List.forall₂_cons.mp h).1
        rw [← (mem_clauseParts (hparts ▸ List.mem_cons_self)).1, hsame.propName,
          (mem_clauseParts (hparts' ▸ List.mem_cons_self)).1]
      have hown := forall₂_filter_propName h fun k => k = p.1
      have hrest := forall₂_filter_propName h fun k => ¬k = p.1
      rw [(filter_parts hnodup).1, hkey, (filter_parts hnodup').1] at hown
      rw [(filter_parts hnodup).2, hkey, (filter_parts hnodup').2] at hrest
      refine .cons (sameClause_of_parts hkey (hnone p List.mem_cons_self) (hnone' p' List.mem_cons_self) hown) ?_
      exact ih (List.nodup_cons.mp hnodup).2 (List.nodup_cons.mp hnodup').2
        (fun q hq => hnone q (List.mem_cons_of_mem p hq)) (fun q hq => hnone' q (List.mem_cons_of_mem p' hq)) hrest

/-! ## The object -/

def builtParts (parts : List ClausePart) (h : ∀ part ∈ parts, part.Written) : List Built :=
  parts.pmap (fun part h => .object (partProps part h)) h

theorem mapM_appendClause (parts : List ClausePart) (h : ∀ part ∈ parts, part.Written) :
    parts.mapM appendClause = .ok ((builtParts parts h).map Built.visits) := by
  induction parts with
  | nil => rfl
  | cons part parts ih =>
    rw [List.mapM_cons, appendClause_eq part (h part List.mem_cons_self), ok_bind,
      ih fun part hpart => h part (List.mem_cons_of_mem _ hpart), ok_bind]
    rfl

theorem builtParts_inj {parts parts' : List ClausePart} (h : ∀ part ∈ parts, part.Written)
    (h' : ∀ part ∈ parts', part.Written)
    (heq : (builtParts parts h).map Built.obj = (builtParts parts' h').map Built.obj) :
    List.Forall₂ ClausePart.Same parts parts' := by
  induction parts generalizing parts' with
  | nil =>
    cases parts' with
    | nil => exact .nil
    | cons part' parts' => cases heq
  | cons part parts ih =>
    cases parts' with
    | nil => cases heq
    | cons part' parts' =>
      obtain ⟨hpart, hparts⟩ := List.cons.inj heq
      exact .cons (part_inj _ _ hpart) (ih _ _ hparts)

/-- The calls for the properties one after the other. -/
def entryVisits (es : List (MojString × Built)) : List Visit := es.flatMap fun e => .propName e.1 :: e.2.visits

theorem entryVisits_append (es fs : List (MojString × Built)) : entryVisits (es ++ fs) = entryVisits es ++ entryVisits fs :=
  List.flatMap_append

def clausesEntry (key : MojString) (map : WhereMap) (h : ∀ part ∈ map.flatMap clauseParts, part.Written) :
    List (MojString × Built) :=
  entryIf (!map.isEmpty) key (.array (builtParts (map.flatMap clauseParts) h))

theorem clausesVisits_eq (key : MojString) (map : WhereMap) (h : ∀ part ∈ map.flatMap clauseParts, part.Written) :
    clausesVisits key map = .ok (entryVisits (clausesEntry key map h)) := by
  unfold clausesVisits clausesEntry entryIf
  cases hmap : map.isEmpty with
  | true => rfl
  | false =>
    simp only [Bool.false_eq_true, if_false, Bool.not_false, if_true, appendClauses, mapM_appendClause _ h, ok_bind]
    simp [entryVisits, Built.array, List.flatMap_def, pure, Except.pure]

def stringEntry (key val : MojString) : List (MojString × Built) := entryIf (!val.isEmpty) key (.string val)

theorem stringVisits_eq (key val : MojString) : stringVisits key val = entryVisits (stringEntry key val) := by
  unfold stringVisits stringEntry entryIf
  cases val.isEmpty with
  | true => rfl
  | false => rfl

variable (q : MojDbSearchQuery)

theorem whereParts_written : ∀ part ∈ q.whereClauses.flatMap clauseParts, part.Written := by
  intro part hpart
  obtain ⟨p, hp, hmem⟩ := List.mem_flatMap.mp hpart
  obtain ⟨-, hop, hval⟩ := mem_clauseParts hmem
  obtain ⟨hlower, hupper⟩ := q.vals_ordered p (List.mem_append_left _ hp)
  refine ⟨hop, ?_⟩
  cases hval with
  | inl hval => exact hval ▸ hlower
  | inr hval => exact hval ▸ hupper

theorem filterParts_written : ∀ part ∈ q.filterClauses.flatMap clauseParts, part.Written := by
  intro part hpart
  obtain ⟨p, hp, hmem⟩ := List.mem_flatMap.mp hpart
  obtain ⟨-, hop, hval⟩ := mem_clauseParts hmem
  obtain ⟨hlower, hupper⟩ := q.vals_ordered p (List.mem_append_right _ hp)
  refine ⟨hop, ?_⟩
  cases hval with
  | inl hval => exact hval ▸ hlower
  | inr hval => exact hval ▸ hupper

def selectBuilt : Built := .array (q.selectProps.elems.map Built.string)

def pageBuilt (page : MojDbKey) : Built := .string ⟨MojBase64Encode page false, zero_notMem_pageText page⟩

/-- The properties of the object, as they are written. -/
def entries : List (MojString × Built) :=
  entryIf (!q.selectProps.isEmpty) SelectKey q.selectBuilt ++ entryIf true FromKey (.string q.fromType) ++
    clausesEntry WhereKey q.whereClauses q.whereParts_written ++
    clausesEntry FilterKey q.filterClauses q.filterParts_written ++ stringEntry OrderByKey q.orderProp ++
    stringEntry DistinctKey q.distinct ++ entryIf q.desc DescKey (.bool true) ++
    entryIf (decide (q.limit ≠ LimitDefault)) LimitKey (.int (Int64.ofNat q.limit)) ++
    entryIf (decide (q.page ≠ [])) PageKey (pageBuilt q.page)

theorem selectVisits_eq : q.selectVisits = entryVisits (entryIf (!q.selectProps.isEmpty) SelectKey q.selectBuilt) := by
  unfold selectVisits entryIf
  cases q.selectProps.isEmpty with
  | true => rfl
  | false =>
    have hstrings : (q.selectProps.elems.map Built.string).flatMap Built.visits =
        q.selectProps.elems.map Visit.stringValue := by
      rw [List.flatMap_map]
      exact List.flatMap_pure_eq_map _ _
    simp [entryVisits, selectBuilt, Built.array, hstrings]

theorem toVisits_eq : q.toVisits = .ok (Built.object q.entries).visits := by
  have hdesc : (if q.desc then [Visit.propName DescKey, .boolValue true] else []) =
      entryVisits (entryIf q.desc DescKey (.bool true)) := by
    cases q.desc with
    | true => rfl
    | false => rfl
  have hlimit : (if q.limit ≠ LimitDefault then [Visit.propName LimitKey, .intValue (Int64.ofNat q.limit)] else []) =
      entryVisits (entryIf (decide (q.limit ≠ LimitDefault)) LimitKey (.int (Int64.ofNat q.limit))) := by
    by_cases h : q.limit ≠ LimitDefault
    · simp [h, entryIf, entryVisits, Built.int]
    · simp [h, entryIf, entryVisits]
  have hpage : (if q.page ≠ [] then Visit.propName PageKey :: (pageObject q.page).visit else []) =
      entryVisits (entryIf (decide (q.page ≠ [])) PageKey (pageBuilt q.page)) := by
    by_cases h : q.page ≠ []
    · simp [h, entryIf, entryVisits, pageBuilt, Built.string, pageObject, MojObject.visit]
    · simp [h, entryIf, entryVisits]
  have hfrom : [Visit.propName FromKey, .stringValue q.fromType] = entryVisits (entryIf true FromKey (.string q.fromType)) := rfl
  unfold toVisits
  rw [clausesVisits_eq WhereKey q.whereClauses q.whereParts_written, ok_bind,
    clausesVisits_eq FilterKey q.filterClauses q.filterParts_written, ok_bind, hdesc, hlimit, hpage, hfrom,
    stringVisits_eq, stringVisits_eq, selectVisits_eq]
  change Except.ok _ = Except.ok (.beginObject :: entryVisits q.entries ++ [.endObject])
  simp only [entries, entryVisits_append, List.cons_append, List.nil_append, List.append_assoc]

theorem toObject_eq : q.toObject = .ok (Built.object q.entries).obj := by
  unfold toObject
  rw [toVisits_eq, ok_bind, (Built.object q.entries).builds.build]
  rfl

/-! ## What the object tells -/

theorem nodup_entries : (q.entries.map Prod.fst).Nodup := by
  have hkeys : ([SelectKey] ++ [FromKey] ++ [WhereKey] ++ [FilterKey] ++ [OrderByKey] ++ [DistinctKey] ++ [DescKey] ++
      [LimitKey] ++ [PageKey]).Nodup := by decide
  have hentry : ∀ (flag : Bool) (key : MojString) (val : Built), ((entryIf flag key val).map Prod.fst).Sublist [key] := by
    intro flag key val
    cases flag with
    | true => exact .refl _
    | false => exact List.nil_sublist _
  refine hkeys.sublist ?_
  simp only [entries, clausesEntry, stringEntry, List.map_append]
  exact ((((((((hentry _ _ _).append (hentry _ _ _)).append (hentry _ _ _)).append (hentry _ _ _)).append
    (hentry _ _ _)).append (hentry _ _ _)).append (hentry _ _ _)).append (hentry _ _ _)).append (hentry _ _ _)

theorem props_append (es fs : List (MojString × Built)) : props (es ++ fs) = props es ++ props fs := List.map_append

/-- The property that the object has under a name. -/
theorem get_entries (key : MojString) : (Built.object q.entries).obj.get key =
    (((((((((if (!q.selectProps.isEmpty) = true ∧ SelectKey = key then some q.selectBuilt.obj else none).or
      (if FromKey = key then some (.string q.fromType) else none)).or
      (if (!q.whereClauses.isEmpty) = true ∧ WhereKey = key then
        some (Built.array (builtParts _ q.whereParts_written)).obj else none)).or
      (if (!q.filterClauses.isEmpty) = true ∧ FilterKey = key then
        some (Built.array (builtParts _ q.filterParts_written)).obj else none)).or
      (if (!q.orderProp.isEmpty) = true ∧ OrderByKey = key then some (.string q.orderProp) else none)).or
      (if (!q.distinct.isEmpty) = true ∧ DistinctKey = key then some (.string q.distinct) else none)).or
      (if q.desc = true ∧ DescKey = key then some (.bool true) else none)).or
      (if decide (q.limit ≠ LimitDefault) = true ∧ LimitKey = key then some (.int (Int64.ofNat q.limit)) else none)).or
      (if decide (q.page ≠ []) = true ∧ PageKey = key then some (pageBuilt q.page).obj else none)) := by
  rw [Built.get_object q.nodup_entries]
  simp only [entries, clausesEntry, stringEntry, props_append, getProp_append, Built.getProp_entryIf, true_and]
  rfl

theorem get_select : (Built.object q.entries).obj.get SelectKey =
    if (!q.selectProps.isEmpty) = true then some q.selectBuilt.obj else none := by
  simp +decide [get_entries]

theorem get_from : (Built.object q.entries).obj.get FromKey = some (.string q.fromType) := by
  simp +decide [get_entries]

theorem get_where : (Built.object q.entries).obj.get WhereKey =
    if (!q.whereClauses.isEmpty) = true then some (Built.array (builtParts _ q.whereParts_written)).obj else none := by
  simp +decide [get_entries]

theorem get_filter : (Built.object q.entries).obj.get FilterKey =
    if (!q.filterClauses.isEmpty) = true then some (Built.array (builtParts _ q.filterParts_written)).obj else none := by
  simp +decide [get_entries]

theorem get_orderBy : (Built.object q.entries).obj.get OrderByKey =
    if (!q.orderProp.isEmpty) = true then some (.string q.orderProp) else none := by
  simp +decide [get_entries]

theorem get_distinct : (Built.object q.entries).obj.get DistinctKey =
    if (!q.distinct.isEmpty) = true then some (.string q.distinct) else none := by
  simp +decide [get_entries]

theorem get_desc : (Built.object q.entries).obj.get DescKey = if q.desc = true then some (.bool true) else none := by
  simp +decide [get_entries]

/-- What two queries have in common whose objects are the same but for limit and page. -/
structure SameWritten (q q' : MojDbSearchQuery) : Prop where
  fromType : q.fromType = q'.fromType
  selectProps : q.selectProps = q'.selectProps
  whereClauses : List.Forall₂ SameClause q.whereClauses q'.whereClauses
  filterClauses : List.Forall₂ SameClause q.filterClauses q'.filterClauses
  orderProp : q.orderProp = q'.orderProp
  distinct : q.distinct = q'.distinct
  desc : q.desc = q'.desc

/-- A value that is only written if it is not empty. -/
theorem eq_of_unless_empty {α β : Type*} (isEmpty : α → Bool) (f : α → β) {a b : α}
    (hempty : isEmpty a = true → isEmpty b = true → a = b) (hinj : f a = f b → a = b)
    (h : (if (!isEmpty a) = true then some (f a) else none) = if (!isEmpty b) = true then some (f b) else none) : a = b := by
  cases ha : isEmpty a with
  | true =>
    cases hb : isEmpty b with
    | true => exact hempty ha hb
    | false => simp [ha, hb] at h
  | false =>
    cases hb : isEmpty b with
    | true => simp [ha, hb] at h
    | false =>
      simp only [ha, hb, Bool.not_false, if_true] at h
      exact hinj (Option.some.inj h)

theorem string_eq_of_unless_empty {s t : MojString}
    (h : (if (!s.isEmpty) = true then some (MojObject.string s) else none) =
      if (!t.isEmpty) = true then some (MojObject.string t) else none) : s = t := by
  refine eq_of_unless_empty _ _ (fun hs ht => ?_) MojObject.string.inj h
  cases s
  cases t
  simp only [MojString.isEmpty, List.isEmpty_iff] at hs ht
  simp [hs, ht]

theorem clauses_of_get {map map' : WhereMap} (hw : ∀ part ∈ map.flatMap clauseParts, part.Written)
    (hw' : ∀ part ∈ map'.flatMap clauseParts, part.Written)
    (h : (if (!map.isEmpty) = true then some (Built.array (builtParts _ hw)).obj else none) =
      if (!map'.isEmpty) = true then some (Built.array (builtParts _ hw')).obj else none) :
    List.Forall₂ ClausePart.Same (map.flatMap clauseParts) (map'.flatMap clauseParts) := by
  cases hm : map.isEmpty with
  | true =>
    cases hm' : map'.isEmpty with
    | true =>
      rw [List.isEmpty_iff.mp hm, List.isEmpty_iff.mp hm']
      exact .nil
    | false => simp [hm, hm'] at h
  | false =>
    cases hm' : map'.isEmpty with
    | true => simp [hm, hm'] at h
    | false =>
      simp only [hm, hm', Bool.not_false, if_true] at h
      exact builtParts_inj hw hw' (MojObject.array.inj (Option.some.inj h))

theorem toObject_inj {q q' : MojDbSearchQuery}
    (h : ∀ key, key ≠ LimitKey → key ≠ PageKey →
      (Built.object q.entries).obj.get key = (Built.object q'.entries).obj.get key) : q.SameWritten q' := by
  have hselect := h SelectKey (by decide) (by decide)
  have hfrom := h FromKey (by decide) (by decide)
  have hwhere := h WhereKey (by decide) (by decide)
  have hfilter := h FilterKey (by decide) (by decide)
  have horder := h OrderByKey (by decide) (by decide)
  have hdistinct := h DistinctKey (by decide) (by decide)
  have hdesc := h DescKey (by decide) (by decide)
  rw [get_select, get_select] at hselect
  rw [get_from, get_from] at hfrom
  rw [get_where, get_where] at hwhere
  rw [get_filter, get_filter] at hfilter
  rw [get_orderBy, get_orderBy] at horder
  rw [get_distinct, get_distinct] at hdistinct
  rw [get_desc, get_desc] at hdesc
  refine
    { fromType := MojObject.string.inj (Option.some.inj hfrom)
      selectProps := ?_
      whereClauses := sameClauses_of_parts q.where_nodup q'.where_nodup
        (fun p hp => q.upper_none p (List.mem_append_left _ hp)) (fun p hp => q'.upper_none p (List.mem_append_left _ hp))
        (clauses_of_get _ _ hwhere)
      filterClauses := sameClauses_of_parts q.filter_nodup q'.filter_nodup
        (fun p hp => q.upper_none p (List.mem_append_right _ hp)) (fun p hp => q'.upper_none p (List.mem_append_right _ hp))
        (clauses_of_get _ _ hfilter)
      orderProp := string_eq_of_unless_empty horder
      distinct := string_eq_of_unless_empty hdistinct
      desc := ?_ }
  · refine eq_of_unless_empty (fun s : SortedSet MojString => s.isEmpty)
      (fun s => (Built.array (s.elems.map Built.string)).obj) (fun hs ht => ?_) (fun hobj => ?_) hselect
    · have helems := (List.isEmpty_iff.mp hs).trans (List.isEmpty_iff.mp ht).symm
      exact SortedSet.ext fun x => by rw [SortedSet.mem_def, SortedSet.mem_def, helems]
    · have harray := MojObject.array.inj hobj
      rw [List.map_map, List.map_map] at harray
      have helems := List.map_injective_iff.mpr (fun _ _ => MojObject.string.inj) harray
      exact SortedSet.ext fun x => by rw [SortedSet.mem_def, SortedSet.mem_def, helems]
  · cases hd : q.desc with
    | true =>
      cases hd' : q'.desc with
      | true => rfl
      | false => simp [hd, hd'] at hdesc
    | false =>
      cases hd' : q'.desc with
      | true => simp [hd, hd'] at hdesc
      | false => rfl

end MojDbSearchQuery

end Db8
