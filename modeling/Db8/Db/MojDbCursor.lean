import Db8.Core.MojObjectFilterInit
import Db8.Db.MojDbObjectHeader

/-!
# Db.MojDbCursor

`MojDbCursor::visitObject`: the fields of an item that a find returns, with a select list or without.

* `visitObject`    — the item visits the object filter of the cursor, if there is one.
* `fields`         — what a stored item tells of: the header, then the rest in its own order.
* `keeps_fields`   — the names of the rest that come upwards after those of the header.
* `visitObject_projects_iff` — when the selected fields are the projection of all of them.
-/

namespace Db8

open Lib MojObject MojObjectWriter MojDb

namespace MojDbCursor

/-- `m_objectFilter` after `initImpl`. -/
def objectFilter (select : SortedSet MojString) : Option MojObjectFilter.Node :=
  if select.isEmpty then none else some (MojObjectFilter.init select)

/-- `MojDbCursor::visitObject` at an item of the store, without aggregation: the calls the visitor gets. -/
def visitObject (engine : MojDbKindTokens) (names : MojString → List MojString) (id : MojObject)
    (data : List MojByte) (select : SortedSet MojString) : Except MojErr (List Visit) := do
  let evs ← MojDbObjectHeader.visit engine names id data
  match objectFilter select with
  | none => return evs
  | some root => return ((MojObjectFilter.setVisitor root).visit evs).out

/-- The properties a stored item tells of, in its order. -/
def fields (putId : MojObject) (rev : Int64) (kindId : MojString) (obj : MojObject) :
    List (MojString × MojObject) :=
  MojDbObjectHeader.fixedProps putId rev kindId ++
    (if (obj.put RevKey (.int rev)).isDeleted then [(DelKey, .bool true)] else []) ++
    MojDbObjectHeader.body (obj.put RevKey (.int rev)).props

/-- The fields that are asked for: without a select list all of them. -/
def selected (select : SortedSet MojString) (ps : List (MojString × MojObject)) : List (MojString × MojObject) :=
  if select.isEmpty then ps else projectProps (MojObjectFilter.wants (MojObjectFilter.paths select)) ps

/-- The names that no name of the header told of before sorts behind. -/
def kept (k : MojString) : Bool := decide (k = IdKey) || decide (k = KindKey) || decide (RevKey ≤ k)

/-- A name of the rest, after the header's and others that do not count. -/
theorem kept_of_rest {k : MojString} (hid : k ≠ IdKey) (hkind : k ≠ KindKey) {lower : List MojString}
    (hlower : ∀ j ∈ lower, j < k ∨ j < RevKey) :
    ((IdKey :: KindKey :: RevKey :: lower).all fun j => !decide (k < j)) = kept k := by
  have hidrev : IdKey < RevKey := by decide
  have hkindrev : KindKey < RevKey := by decide
  rw [kept, decide_eq_false hid, decide_eq_false hkind, Bool.false_or, Bool.false_or]
  by_cases hrev : RevKey ≤ k
  · rw [decide_eq_true hrev, List.all_eq_true]
    intro j hj
    have hle : j ≤ k := by
      simp only [List.mem_cons] at hj
      obtain rfl | rfl | rfl | hj := hj
      · exact hidrev.le.trans hrev
      · exact hkindrev.le.trans hrev
      · exact hrev
      · cases hlower j hj with
        | inl hlt => exact hlt.le
        | inr hlt => exact hlt.le.trans hrev
    simpa using hle
  · simp [hrev, not_le.mp hrev]

/-- The names of a stored item: those of the header, `_del` when it is deleted, and those of the rest. -/
theorem keeps_fields {rest : List MojString} (hrest : rest.Pairwise (· < ·)) (hid : IdKey ∉ rest)
    (hkind : KindKey ∉ rest) (del : Bool) :
    MojObjectFilter.Keeps ([IdKey, KindKey, RevKey] ++ (if del then [DelKey] else []) ++ rest) kept := by
  have hbody : ∀ passed k after, rest = passed ++ k :: after → k ≠ IdKey ∧ k ≠ KindKey ∧ ∀ j ∈ passed, j < k := by
    intro passed k after hsplit
    have hmem : k ∈ rest := hsplit ▸ (by simp)
    rw [hsplit, List.pairwise_append] at hrest
    exact ⟨fun he => hid (he ▸ hmem), fun he => hkind (he ▸ hmem), fun j hj => hrest.2.2 j hj k List.mem_cons_self⟩
  have hnames : ∀ passed k after, (if del then [DelKey] else []) ++ rest = passed ++ k :: after →
      ((IdKey :: KindKey :: RevKey :: passed).all fun j => !decide (k < j)) = kept k := by
    intro passed k after hsplit
    cases del with
    | false =>
      obtain ⟨hid, hkind, hlt⟩ := hbody passed k after hsplit
      exact kept_of_rest hid hkind fun j hj => .inl (hlt j hj)
    | true =>
      cases passed with
      | nil =>
        obtain rfl : DelKey = k := (List.cons.inj hsplit).1
        decide
      | cons j passed =>
        obtain rfl : DelKey = j := (List.cons.inj hsplit).1
        obtain ⟨hid, hkind, hlt⟩ := hbody passed k after (List.cons.inj hsplit).2
        refine kept_of_rest hid hkind fun j hj => ?_
        cases List.mem_cons.mp hj with
        | inl hj => exact .inr (hj ▸ by decide)
        | inr hj => exact .inl (hlt j hj)
  intro passed k after hsplit
  rw [List.append_assoc] at hsplit
  -- the first three names are those of the header
  match passed, hsplit with
  | [], hsplit =>
    obtain rfl : IdKey = k := (List.cons.inj hsplit).1
    decide
  | [a], hsplit =>
    simp only [List.cons_append, List.nil_append, List.cons.injEq] at hsplit
    obtain ⟨rfl, rfl, -⟩ := hsplit
    decide
  | [a, b], hsplit =>
    simp only [List.cons_append, List.nil_append, List.cons.injEq] at hsplit
    obtain ⟨rfl, rfl, rfl, -⟩ := hsplit
    decide
  | a :: b :: c :: passed, hsplit =>
    simp only [List.cons_append, List.nil_append, List.cons.injEq] at hsplit
    obtain ⟨rfl, rfl, rfl, hsplit⟩ := hsplit
    exact hnames passed k after hsplit

section Stored

variable {engine engine' : MojDbKindTokens} {putId : MojObject} {rev : Int64} {obj : MojObject}
  {tokenSet : MojTokenSet} {populate : Bool} {data : List MojByte} {written : Option (List MojString)}
  {names : MojString → List MojString}

theorem keeps_names (hord : obj.isOrdered = true) (kindId : MojString) :
    MojObjectFilter.Keeps ((fields putId rev kindId obj).map Prod.fst) kept := by
  have hstored : isOrderedProps (obj.put RevKey (.int rev)).props = true :=
    isOrderedProps_props (isOrdered_put hord rfl)
  have hsub : (MojDbObjectHeader.body (obj.put RevKey (.int rev)).props).Sublist (obj.put RevKey (.int rev)).props :=
    (List.filter_sublist.trans List.filter_sublist).trans List.filter_sublist
  have hrest : ((MojDbObjectHeader.body (obj.put RevKey (.int rev)).props).map Prod.fst).Pairwise (· < ·) := by
    rw [List.pairwise_map]
    exact ((isOrderedProps_iff.mp hstored).2.imp fun h => MojString.compare_eq_lt.mp h).sublist hsub
  have hnot : ∀ key, key = IdKey ∨ key = KindKey →
      key ∉ (MojDbObjectHeader.body (obj.put RevKey (.int rev)).props).map Prod.fst := by
    intro key hkey hmem
    obtain ⟨p, hp, rfl⟩ := List.mem_map.mp hmem
    simp only [MojDbObjectHeader.body, List.mem_filter, decide_eq_true_eq, ne_eq] at hp
    cases hkey with
    | inl hid => exact hp.1.1.2 hid
    | inr hkind => exact hp.1.2 hkind
  have hkeeps := keeps_fields hrest (hnot IdKey (.inl rfl)) (hnot KindKey (.inr rfl)) (obj.put RevKey (.int rev)).isDeleted
  rw [fields, List.map_append, List.map_append]
  cases hdel : (obj.put RevKey (.int rev)).isDeleted with
  | _ =>
    rw [hdel] at hkeeps
    exact hkeeps

theorem isOrdered_of_mem_fields (hord : obj.isOrdered = true) (hid : putId.isOrdered = true) {kindId : MojString}
    {p : MojString × MojObject} (hp : p ∈ fields putId rev kindId obj) : p.2.isOrdered = true := by
  rw [fields, List.mem_append, List.mem_append] at hp
  obtain (hp | hp) | hp := hp
  · simp only [MojDbObjectHeader.fixedProps, List.mem_cons, List.not_mem_nil, or_false] at hp
    obtain rfl | rfl | rfl := hp
    · exact hid
    · rfl
    · rfl
  · split_ifs at hp
    · exact List.mem_singleton.mp hp ▸ rfl
    · cases hp
  · have hmem : p ∈ (obj.put RevKey (.int rev)).props :=
      List.mem_of_mem_filter (List.mem_of_mem_filter (List.mem_of_mem_filter hp))
    exact isOrdered_of_mem_props (isOrdered_put hord rfl) hmem

/-- **What a select list returns.** Of an object that a put has accepted, a find without a select list returns
every field, and with one the projection of them exactly if the paths of the list show each field asked for and
its name is not below `_rev`, unless it is `_id` or `_kind`. -/
theorem visitObject_projects_iff (hord : obj.isOrdered = true) (hid : putId.isOrdered = true)
    (hput : MojDbObjectHeader.putObj engine putId rev obj tokenSet populate = .ok (data, written))
    (hengine : ∀ id tok, obj.get KindKey = some (.string id) → engine.tokenFromId id = .ok tok →
      engine'.tokenFromId id = .ok tok)
    (hnames : ∀ id, obj.get KindKey = some (.string id) → Grows written (some (names id)))
    (select : SortedSet MojString) :
    ∃ kindId, obj.get KindKey = some (.string kindId) ∧
      visitObject engine' names putId data .empty = .ok (MojObject.object (fields putId rev kindId obj)).visit ∧
      (visitObject engine' names putId data select =
          .ok (MojObject.object (selected select (fields putId rev kindId obj))).visit ↔
        ∀ q ∈ leafPathsProps (fields putId rev kindId obj),
          MojObjectFilter.wants (MojObjectFilter.paths select) q = true →
            MojObjectFilter.showsOf kept (MojObjectFilter.paths select) q = true) := by
  obtain ⟨kindId, hkind, hvisit⟩ := MojDbObjectHeader.visit_putObj hput hengine hnames
  have hfields : MojDbObjectHeader.visit engine' names putId data =
      .ok (MojObject.object (fields putId rev kindId obj)).visit := hvisit
  rw [get_put_of_ne (by decide)] at hkind
  refine ⟨kindId, hkind, ?_, ?_⟩
  · rw [visitObject, hfields]
    rfl
  · rw [visitObject, hfields, ok_bind, objectFilter, selected]
    cases hempty : select.isEmpty with
    | true =>
      refine iff_of_true rfl fun q _ hq => ?_
      have hnone : select.elems = [] := List.isEmpty_iff.mp hempty
      simp [MojObjectFilter.wants, MojObjectFilter.paths, hnone] at hq
    | false =>
      rw [← MojObjectFilter.out_eq_iff select (fun p hp => isOrdered_of_mem_fields hord hid hp) (keeps_names hord kindId)]
      exact ⟨fun h => Except.ok.inj h, fun h => congrArg Except.ok h⟩

end Stored

/-! ## A name in upper case -/

/-- `"AB"`. -/
def upperName : MojString := ⟨[65, 66], by decide⟩

/-- `{"AB": "b", "_id": "c", "_kind": "C:1"}`. -/
def upperObject : MojObject :=
  .object [(upperName, .string nameB), (IdKey, .string nameC), (KindKey, .string MojDbObjectHeader.kindC)]

def upperSelect : SortedSet MojString := ⟨[upperName], by decide⟩

def upperData : List MojByte := [1, 12, 1, 44, 11, 7, 16, 2, 32, 4, 98, 0, 0]

theorem putObj_upper : MojDbObjectHeader.putObj MojDbObjectHeader.engineC (.string nameC) 7 upperObject
    (.init .empty) true = .ok (upperData, some [upperName]) := by
  decide +kernel

theorem visitObject_projects_upper :
    ∃ kindId, upperObject.get KindKey = some (.string kindId) ∧
      visitObject MojDbObjectHeader.engineC (fun _ => [upperName]) (.string nameC) upperData .empty =
        .ok (MojObject.object (fields (.string nameC) 7 kindId upperObject)).visit ∧
      (visitObject MojDbObjectHeader.engineC (fun _ => [upperName]) (.string nameC) upperData upperSelect =
          .ok (MojObject.object (selected upperSelect (fields (.string nameC) 7 kindId upperObject))).visit ↔
        ∀ q ∈ leafPathsProps (fields (.string nameC) 7 kindId upperObject),
          MojObjectFilter.wants (MojObjectFilter.paths upperSelect) q = true →
            MojObjectFilter.showsOf kept (MojObjectFilter.paths upperSelect) q = true) :=
  visitObject_projects_iff (by decide) rfl putObj_upper (fun _ _ _ h => h) (fun _ _ => grows_refl _) upperSelect

/-- `_id` passes the only name selected, which sorts below it. -/
theorem visitObject_loses_upper :
    visitObject MojDbObjectHeader.engineC (fun _ => [upperName]) (.string nameC) upperData upperSelect ≠
      .ok (MojObject.object (selected upperSelect
        (fields (.string nameC) 7 MojDbObjectHeader.kindC upperObject))).visit := by
  decide +kernel

end MojDbCursor

end Db8
