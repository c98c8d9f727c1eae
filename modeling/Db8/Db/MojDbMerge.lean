import Db8.Core.MojObjectBuilder
import Db8.Core.MojString

/-!
# Db.MojDbMerge

`MojDb::mergeInto`: an object merged over the stored one, property by property.

* `IsMerge` says what a merge is for, on look-ups.
* `mergeProps` walks the two property lists in lock step; `get_mergeProps` is what it puts.
* `mergeInto_isMerge`, `mergeInto_self`, `mergeInto_idem`.
-/

namespace Db8

open Lib MojObject

namespace MojString

theorem lt_cons {s k : MojString} {a : MojObject} {ps : List (MojString × MojObject)}
    (h : s.compare k = .lt) (hps : ∀ p ∈ ps, k.compare p.1 = .lt) :
    ∀ p ∈ (k, a) :: ps, s.compare p.1 = .lt := by
  intro p hp
  cases List.mem_cons.mp hp with
  | inl hp => rwa [hp]
  | inr hp => exact compare_trans h (hps p hp)

end MojString

namespace MojObject

def isObject (o : MojObject) : Bool := o.type = .typeObject

theorem isOrderedProps_cons {k : MojString} {a : MojObject} {ps : List (MojString × MojObject)} :
    isOrderedProps ((k, a) :: ps) = true ↔
      a.isOrdered = true ∧ (∀ p ∈ ps, k.compare p.1 = .lt) ∧ isOrderedProps ps = true := by
  simp only [isOrderedProps, Bool.and_eq_true, List.all_eq_true, decide_eq_true_eq, and_assoc]

theorem getProp_eq_none_of_lt {k : MojString} {ps : List (MojString × MojObject)}
    (h : ∀ p ∈ ps, k.compare p.1 = .lt) : getProp k ps = none := by
  induction ps with
  | nil => rfl
  | cons p ps ih =>
    obtain ⟨l, a⟩ := p
    rw [List.forall_mem_cons] at h
    have hne : l ≠ k := by
      intro he
      rw [MojString.compare_eq_iff.mpr he.symm] at h
      exact absurd h.1 (by decide)
    rw [getProp, if_neg hne, ih h.2]

theorem getProp_cons_of_ne {k l : MojString} {a : MojObject} {ps : List (MojString × MojObject)} (h : k ≠ l) :
    getProp l ((k, a) :: ps) = getProp l ps := by
  rw [getProp, if_neg h]

/-- Induction over the properties alone. -/
@[elab_as_elim]
theorem inductionOn_props {P : MojObject → Prop} (o : MojObject)
    (step : ∀ o : MojObject, (∀ p ∈ o.props, P p.2) → P o) : P o := by
  induction o using inductionOn with
  | object ps ih => exact step (.object ps) ih
  | _ => exact step _ fun _ hp => absurd hp List.not_mem_nil

theorem isOrdered_of_get {o val : MojObject} (h : o.isOrdered = true) {key : MojString}
    (hval : o.get key = some val) : val.isOrdered = true :=
  isOrdered_of_mem_props h ((get_eq_some h).mp hval)

theorem exists_object {o : MojObject} (h : o.isObject = true) : ∃ ps, o = .object ps := by
  cases o with
  | object ps => exact ⟨ps, rfl⟩
  | _ => exact absurd h (by simp [isObject, type])

end MojObject

/-! ## What a merge is -/

/-- The third is the merge of the first over the second: two objects under one name are merged in
turn, any other value of the first wins, and what only the second has is kept. -/
inductive IsMerge : MojObject → MojObject → MojObject → Prop where
  | intro {obj prev : MojObject} (ms : List (MojString × MojObject))
    (ordered : isOrderedProps ms = true)
    (present : ∀ key val, obj.get key = some val → (getProp key ms).isSome = true)
    (both : ∀ key val old m, obj.get key = some val → prev.get key = some old →
      val.isObject = true → old.isObject = true → getProp key ms = some m → IsMerge val old m)
    (wins : ∀ key val, obj.get key = some val →
      (∀ old, prev.get key = some old → (val.isObject && old.isObject) = false) →
      getProp key ms = some val)
    (kept : ∀ key, obj.get key = none → getProp key ms = prev.get key) :
    IsMerge obj prev (.object ms)

/-! ## The walk -/

namespace MojDb

/-- The turns of the loop once `obj` is at its end. -/
def mergeRest (prevs : List (MojString × MojObject)) (dest : MojObject) : MojObject :=
  prevs.foldl (fun dest p => dest.put p.1 p.2) dest

/-- The turns of the loop that come to the property `key` of `obj`: those of `prev` before it are
put, then `key` itself, merged with the value of `prev` where both are objects. -/
def mergeAt (key : MojString) (val : MojObject) (merged : MojObject → MojObject)
    (next : List (MojString × MojObject) → MojObject → MojObject) :
    List (MojString × MojObject) → MojObject → MojObject
  | [], dest => next [] (dest.put key val)
  | (prevKey, prevVal) :: prevs, dest =>
    match key.compare prevKey with
    | .gt => mergeAt key val merged next prevs (dest.put prevKey prevVal)
    | .lt => next ((prevKey, prevVal) :: prevs) (dest.put key val)
    | .eq => next prevs (dest.put key (if val.isObject && prevVal.isObject then merged prevVal else val))

mutual
/-- `MojDb::mergeInto`; a value that is no object has no properties to walk. -/
def mergeInto : MojObject → MojObject → MojObject → MojObject
  | .object objs, prev, dest => mergeProps objs prev.props dest
  | _, prev, dest => mergeRest prev.props dest

/-- The loop of `mergeInto`, on the properties from the two iterators on. -/
def mergeProps : List (MojString × MojObject) → List (MojString × MojObject) → MojObject → MojObject
  | [], prevs, dest => mergeRest prevs dest
  | (key, val) :: objs, prevs, dest =>
    mergeAt key val (fun prevVal => mergeInto val prevVal (.object [])) (mergeProps objs) prevs dest
end

theorem mergeInto_eq (obj prev dest : MojObject) :
    mergeInto obj prev dest = mergeProps obj.props prev.props dest := by
  cases obj <;> simp only [mergeInto, mergeProps, props]

/-- What the loop puts where both sides have a value. -/
def mergeVal (val old : MojObject) : MojObject :=
  if val.isObject && old.isObject then mergeInto val old (.object []) else val

/-- What the loop puts under a key, given what the two sides have there. -/
def mergeOption : Option MojObject → Option MojObject → Option MojObject
  | some val, some old => some (mergeVal val old)
  | some val, none => some val
  | none, old => old

theorem get_mergeRest {prevs : List (MojString × MojObject)} (h : isOrderedProps prevs = true) (dest : MojObject)
    (key : MojString) : (mergeRest prevs dest).get key = (getProp key prevs).or (dest.get key) := by
  induction prevs generalizing dest with
  | nil => rfl
  | cons p prevs ih =>
    obtain ⟨k, a⟩ := p
    obtain ⟨-, hlt, hprevs⟩ := isOrderedProps_cons.mp h
    have hrest : (mergeRest ((k, a) :: prevs) dest) = mergeRest prevs (dest.put k a) := rfl
    rw [hrest, ih hprevs]
    by_cases hk : k = key
    · subst hk
      rw [getProp_eq_none_of_lt hlt, get_put_self]
      simp [getProp]
    · rw [get_put_of_ne (Ne.symm hk)]
      simp [getProp, hk]

/-- The loop at a key of `obj`, when `next` is the loop on what follows it. -/
theorem get_mergeAt {key : MojString} {val : MojObject} {objs prevs : List (MojString × MojObject)}
    {next : List (MojString × MojObject) → MojObject → MojObject}
    (hobjs : ∀ p ∈ objs, key.compare p.1 = .lt) (hprevs : isOrderedProps prevs = true)
    (hnext : ∀ prevs dest, isOrderedProps prevs = true → ∀ k,
      (next prevs dest).get k = (mergeOption (getProp k objs) (getProp k prevs)).or (dest.get k))
    (dest : MojObject) (k : MojString) :
    (mergeAt key val (fun old => mergeInto val old (.object [])) next prevs dest).get k =
      (mergeOption (getProp k ((key, val) :: objs)) (getProp k prevs)).or (dest.get k) := by
  induction prevs generalizing dest with
  | nil =>
    rw [mergeAt, hnext _ _ rfl]
    by_cases hk : key = k
    · subst hk
      rw [getProp_eq_none_of_lt hobjs, get_put_self]
      simp [getProp, mergeOption]
    · rw [get_put_of_ne (Ne.symm hk)]
      simp [getProp, hk]
  | cons p prevs ih =>
    obtain ⟨prevKey, old⟩ := p
    obtain ⟨-, hlt, htail⟩ := isOrderedProps_cons.mp hprevs
    cases hc : key.compare prevKey with
    | gt =>
      have hpk : prevKey.compare key = .lt := MojString.compare_eq_gt.mp hc
      simp only [mergeAt, hc]
      rw [ih htail]
      by_cases hk : prevKey = k
      · subst hk
        have hnone : getProp prevKey ((key, val) :: objs) = none :=
          getProp_eq_none_of_lt (MojString.lt_cons hpk hobjs)
        rw [hnone, getProp_eq_none_of_lt hlt, get_put_self]
        simp [getProp, mergeOption]
      · rw [get_put_of_ne (Ne.symm hk), getProp_cons_of_ne hk]
    | lt =>
      simp only [mergeAt, hc]
      rw [hnext _ _ hprevs]
      by_cases hk : key = k
      · subst hk
        have hnone : getProp key ((prevKey, old) :: prevs) = none :=
          getProp_eq_none_of_lt (MojString.lt_cons hc hlt)
        rw [hnone, getProp_eq_none_of_lt hobjs, get_put_self]
        simp [getProp, mergeOption]
      · rw [get_put_of_ne (Ne.symm hk), getProp_cons_of_ne hk]
    | eq =>
      obtain rfl := MojString.compare_eq_iff.mp hc
      simp only [mergeAt, hc]
      rw [hnext _ _ htail]
      by_cases hk : key = k
      · subst hk
        rw [getProp_eq_none_of_lt hobjs, getProp_eq_none_of_lt hlt, get_put_self]
        simp [getProp, mergeOption, mergeVal]
      · rw [get_put_of_ne (Ne.symm hk), getProp_cons_of_ne hk, getProp_cons_of_ne hk]

theorem get_mergeProps {objs prevs : List (MojString × MojObject)} (hobjs : isOrderedProps objs = true)
    (hprevs : isOrderedProps prevs = true) (dest : MojObject) (k : MojString) :
    (mergeProps objs prevs dest).get k =
      (mergeOption (getProp k objs) (getProp k prevs)).or (dest.get k) := by
  induction objs generalizing prevs dest k with
  | nil =>
    rw [mergeProps, get_mergeRest hprevs]
    rfl
  | cons p objs ih =>
    obtain ⟨key, val⟩ := p
    obtain ⟨-, hlt, htail⟩ := isOrderedProps_cons.mp hobjs
    rw [mergeProps]
    exact get_mergeAt hlt hprevs (fun prevs dest h k => ih htail h dest k) dest k

/-- What a merge puts is what the two sides have under the key; else what was in `dest`. -/
theorem get_mergeInto {obj prev : MojObject} (hobj : obj.isOrdered = true) (hprev : prev.isOrdered = true)
    (dest : MojObject) (k : MojString) :
    (mergeInto obj prev dest).get k = (mergeOption (obj.get k) (prev.get k)).or (dest.get k) := by
  rw [mergeInto_eq, get_mergeProps (isOrderedProps_props hobj) (isOrderedProps_props hprev),
    get_eq_getProp obj, get_eq_getProp prev]

/-! ## What every turn keeps -/

section Closed

variable {P Q : MojObject → Prop} (hput : ∀ o key val, P o → Q val → P (o.put key val))
include hput

theorem mergeRest_closed {prevs : List (MojString × MojObject)} (hprevs : ∀ p ∈ prevs, Q p.2)
    {dest : MojObject} (hdest : P dest) : P (mergeRest prevs dest) := by
  induction prevs generalizing dest with
  | nil => exact hdest
  | cons p prevs ih =>
    rw [List.forall_mem_cons] at hprevs
    exact ih hprevs.2 (hput _ _ _ hdest hprevs.1)

theorem mergeAt_closed {key : MojString} {val : MojObject} {merged : MojObject → MojObject}
    {next : List (MojString × MojObject) → MojObject → MojObject} (hval : Q val)
    (hmerged : ∀ old, Q old → Q (merged old))
    (hnext : ∀ prevs dest, (∀ p ∈ prevs, Q p.2) → P dest → P (next prevs dest))
    {prevs : List (MojString × MojObject)} (hprevs : ∀ p ∈ prevs, Q p.2)
    {dest : MojObject} (hdest : P dest) : P (mergeAt key val merged next prevs dest) := by
  induction prevs generalizing dest with
  | nil => exact hnext _ _ hprevs (hput _ _ _ hdest hval)
  | cons p prevs ih =>
    obtain ⟨prevKey, old⟩ := p
    obtain ⟨hold, htail⟩ := List.forall_mem_cons.mp hprevs
    cases hc : key.compare prevKey with
    | gt =>
      simp only [mergeAt, hc]
      exact ih htail (hput _ _ _ hdest hold)
    | lt =>
      simp only [mergeAt, hc]
      exact hnext _ _ hprevs (hput _ _ _ hdest hval)
    | eq =>
      simp only [mergeAt, hc]
      refine hnext _ _ htail (hput _ _ _ hdest ?_)
      split_ifs with hboth
      · exact hmerged _ hold
      · exact hval

theorem mergeProps_closed {objs prevs : List (MojString × MojObject)} (hobjs : ∀ p ∈ objs, Q p.2)
    (hmerged : ∀ p ∈ objs, ∀ old, Q old → Q (mergeInto p.2 old (.object [])))
    (hprevs : ∀ p ∈ prevs, Q p.2) {dest : MojObject} (hdest : P dest) : P (mergeProps objs prevs dest) := by
  induction objs generalizing prevs dest with
  | nil =>
    rw [mergeProps]
    exact mergeRest_closed hput hprevs hdest
  | cons p objs ih =>
    obtain ⟨key, val⟩ := p
    rw [List.forall_mem_cons] at hobjs hmerged
    rw [mergeProps]
    exact mergeAt_closed hput hobjs.1 hmerged.1 (fun _ _ h hd => ih hobjs.2 hmerged.2 h hd) hprevs hdest

end Closed

theorem isObject_put (o : MojObject) (key : MojString) (val : MojObject) : (o.put key val).isObject = true := by
  cases o <;> rfl

/-- A merge into an object is an object. -/
theorem isObject_mergeInto (obj prev : MojObject) {dest : MojObject} (h : dest.isObject = true) :
    (mergeInto obj prev dest).isObject = true := by
  rw [mergeInto_eq]
  exact mergeProps_closed (P := fun o => o.isObject = true) (Q := fun _ => True)
    (fun o key val _ _ => isObject_put o key val) (fun _ _ => trivial) (fun _ _ _ _ => trivial)
    (fun _ _ => trivial) h

theorem isOrdered_mergeInto {obj prev dest : MojObject} (hobj : obj.isOrdered = true)
    (hprev : prev.isOrdered = true) (hdest : dest.isOrdered = true) :
    (mergeInto obj prev dest).isOrdered = true := by
  induction obj using inductionOn_props generalizing prev dest with
  | step obj ih =>
    rw [mergeInto_eq]
    refine mergeProps_closed (P := fun o => o.isOrdered = true) (Q := fun o => o.isOrdered = true)
      (fun o key val ho hv => isOrdered_put ho hv) (fun p hp => isOrdered_of_mem_props hobj hp) ?_
      (fun p hp => isOrdered_of_mem_props hprev hp) hdest
    intro p hp old hold
    exact ih p hp (isOrdered_of_mem_props hobj hp) hold rfl

/-! ## The merge of two objects -/

theorem get_mergeInto_empty {obj prev : MojObject} (hobj : obj.isOrdered = true) (hprev : prev.isOrdered = true)
    (k : MojString) : (mergeInto obj prev (.object [])).get k = mergeOption (obj.get k) (prev.get k) := by
  rw [get_mergeInto hobj hprev]
  exact Option.or_none

/-- A merge into an empty object is known by its look-ups. -/
theorem mergeInto_eq_iff {obj prev o : MojObject} (hobj : obj.isOrdered = true) (hprev : prev.isOrdered = true)
    (ho : o.isOrdered = true) (hobject : o.isObject = true) :
    mergeInto obj prev (.object []) = o ↔ ∀ k, mergeOption (obj.get k) (prev.get k) = o.get k := by
  refine ⟨?_, ?_⟩
  · intro he k
    rw [← he, get_mergeInto_empty hobj hprev]
  · intro hget
    have hm : (mergeInto obj prev (.object [])).isOrdered = true := isOrdered_mergeInto hobj hprev rfl
    have hk := get_mergeInto_empty hobj hprev
    obtain ⟨ms, hms⟩ := exists_object (@isObject_mergeInto obj prev (.object []) rfl)
    obtain ⟨os, rfl⟩ := exists_object hobject
    rw [hms] at hm hk ⊢
    rw [eq_of_getProp hm ho]
    intro k
    exact (hk k).trans (hget k)

theorem mergeInto_isMerge {obj prev : MojObject} (hobj : obj.isOrdered = true) (hprev : prev.isOrdered = true) :
    IsMerge obj prev (mergeInto obj prev (.object [])) := by
  induction obj using inductionOn_props generalizing prev with
  | step obj ih =>
    have hm : (mergeInto obj prev (.object [])).isOrdered = true := isOrdered_mergeInto hobj hprev rfl
    have hget := get_mergeInto_empty hobj hprev
    obtain ⟨ms, hms⟩ := exists_object (@isObject_mergeInto obj prev (.object []) rfl)
    rw [hms] at hm hget ⊢
    change ∀ k, getProp k ms = _ at hget
    refine .intro ms hm ?_ ?_ ?_ ?_
    · intro key val hval
      rw [hget, hval]
      cases prev.get key <;> rfl
    · intro key val old m hval hold hv ho hkey
      rw [hget, hval, hold] at hkey
      have hmerged : mergeVal val old = m := Option.some.inj hkey
      rw [mergeVal, hv, ho] at hmerged
      rw [← hmerged]
      exact ih (key, val) ((get_eq_some hobj).mp hval) (isOrdered_of_get hobj hval) (isOrdered_of_get hprev hold)
    · intro key val hval hno
      rw [hget, hval]
      cases hold : prev.get key with
      | none => rfl
      | some old =>
        rw [mergeOption, mergeVal, hno old hold]
        rfl
    · intro key hnone
      rw [hget, hnone]
      rfl

/-- A value merged over itself. -/
theorem mergeInto_self {obj : MojObject} (h : obj.isOrdered = true) (hobj : obj.isObject = true) :
    mergeInto obj obj (.object []) = obj := by
  induction obj using inductionOn_props with
  | step obj ih =>
    rw [mergeInto_eq_iff h h h hobj]
    intro k
    cases hval : obj.get k with
    | none => rfl
    | some val =>
      rw [mergeOption, mergeVal, Bool.and_self]
      split_ifs with hv
      · rw [ih (k, val) ((get_eq_some h).mp hval) (isOrdered_of_get h hval) hv]
      · rfl

theorem mergeVal_self {val : MojObject} (h : val.isOrdered = true) : mergeVal val val = val := by
  rw [mergeVal, Bool.and_self]
  split_ifs with hv
  · exact mergeInto_self h hv
  · rfl

theorem mergeInto_idem {obj prev : MojObject} (hobj : obj.isOrdered = true) (hprev : prev.isOrdered = true) :
    mergeInto obj (mergeInto obj prev (.object [])) (.object []) = mergeInto obj prev (.object []) := by
  induction obj using inductionOn_props generalizing prev with
  | step obj ih =>
    have hm : (mergeInto obj prev (.object [])).isOrdered = true := isOrdered_mergeInto hobj hprev rfl
    rw [mergeInto_eq_iff hobj hm hm (isObject_mergeInto obj prev rfl)]
    intro k
    rw [get_mergeInto_empty hobj hprev]
    cases hval : obj.get k with
    | none => rfl
    | some val =>
      have hv := isOrdered_of_get hobj hval
      cases hold : prev.get k with
      | none => rw [mergeOption, mergeOption, mergeVal_self hv]
      | some old =>
        rw [mergeOption, mergeOption]
        by_cases hboth : (val.isObject && old.isObject) = true
        · have hmerged : mergeVal val old = mergeInto val old (.object []) := if_pos hboth
          have hobject := @isObject_mergeInto val old (.object []) rfl
          rw [Bool.and_eq_true] at hboth
          rw [hmerged, mergeVal, hboth.1, hobject]
          rw [Bool.and_self, if_pos rfl, ih (k, val) ((get_eq_some hobj).mp hval) hv (isOrdered_of_get hprev hold)]
        · have hmerged : mergeVal val old = val := if_neg hboth
          rw [hmerged, mergeVal_self hv]

theorem put_fresh {dest : MojObject} (hdest : dest.props = []) (key : MojString) (val : MojObject) :
    dest.put key val = (MojObject.object []).put key val := by
  cases dest with
  | object ps =>
    obtain rfl : ps = [] := hdest
    rfl
  | _ => rfl

/-- Into a value without properties, such as the `undefined` one of the callers, the same is put. -/
theorem mergeInto_fresh {dest : MojObject} (hdest : dest.props = []) (obj prev : MojObject) :
    mergeInto obj prev dest =
      if obj.props = [] ∧ prev.props = [] then dest else mergeInto obj prev (.object []) := by
  rw [mergeInto_eq, mergeInto_eq]
  have hput := put_fresh hdest
  cases hobjs : obj.props with
  | nil =>
    cases hprevs : prev.props with
    | nil => simp [mergeProps, mergeRest]
    | cons p prevs => simp [mergeProps, mergeRest, hput]
  | cons p objs =>
    cases hprevs : prev.props with
    | nil => simp [mergeProps, mergeAt, hput]
    | cons q prevs =>
      obtain ⟨key, val⟩ := p
      obtain ⟨prevKey, old⟩ := q
      rw [if_neg (fun h => absurd h.1 (List.cons_ne_nil _ _))]
      cases hc : key.compare prevKey with
      | _ => simp only [mergeProps, mergeAt, hc, hput]

/-- What the stored object has, the merge has. -/
theorem props_of_mergeInto_nil {obj prev : MojObject} (hobj : obj.isOrdered = true) (hprev : prev.isOrdered = true)
    (h : (mergeInto obj prev (.object [])).props = []) : prev.props = [] := by
  rw [List.eq_nil_iff_forall_not_mem]
  intro p hp
  have hget := get_mergeInto_empty hobj hprev p.1
  rw [(get_eq_some hprev).mpr hp, get_eq_getProp, h] at hget
  cases hval : obj.get p.1 with
  | none =>
    rw [hval] at hget
    cases hget
  | some val =>
    rw [hval] at hget
    cases hget

/-- The properties `mergeInto` puts into a fresh destination are the merge of `obj` over `prev`, and
the same object merged over the result leaves it as it is. -/
theorem mergeInto_merges {obj prev dest : MojObject} (hobj : obj.isOrdered = true) (hprev : prev.isOrdered = true)
    (hdest : dest.props = []) :
    IsMerge obj prev (.object (mergeInto obj prev dest).props) ∧
      mergeInto obj (mergeInto obj prev dest) dest = mergeInto obj prev dest := by
  obtain ⟨ms, hms⟩ := exists_object (@isObject_mergeInto obj prev (.object []) rfl)
  have hmerge := mergeInto_isMerge hobj hprev
  rw [mergeInto_fresh hdest]
  split_ifs with hempty
  · have hnil : mergeInto obj prev (.object []) = .object [] := by
      rw [mergeInto_eq, hempty.1, hempty.2]
      rfl
    rw [hnil] at hmerge
    rw [hdest, mergeInto_fresh hdest, if_pos ⟨hempty.1, hdest⟩]
    exact ⟨hmerge, rfl⟩
  · rw [hms] at hmerge ⊢
    refine ⟨hmerge, ?_⟩
    rw [mergeInto_fresh hdest]
    split_ifs with hempty'
    · have hprops : (mergeInto obj prev (.object [])).props = [] := by
        rw [hms]
        exact hempty'.2
      exact absurd ⟨hempty'.1, props_of_mergeInto_nil hobj hprev hprops⟩ hempty
    · rw [← hms, mergeInto_idem hobj hprev]

def sampleStored : MojObject :=
  .object [(⟨[112], by decide⟩, .object [(⟨[113], by decide⟩, .int 1)]), (⟨[114], by decide⟩, .int 2)]

def sampleMerged : MojObject :=
  .object [(⟨[112], by decide⟩, .object [(⟨[115], by decide⟩, .null)]), (⟨[116], by decide⟩, .bool true)]

/-- Under `p` the objects are merged, `r` is kept and `t` is new. -/
theorem mergeInto_merges_sample :
    IsMerge sampleMerged sampleStored (.object (mergeInto sampleMerged sampleStored .undefined).props) ∧
      mergeInto sampleMerged (mergeInto sampleMerged sampleStored .undefined) .undefined =
        mergeInto sampleMerged sampleStored .undefined :=
  mergeInto_merges (by decide) (by decide) rfl

end MojDb

end Db8
