import Db8.Core.MojObjectWriter

/-!
# Core.MojObjectBuilder

The visitor that builds a value from its events, and the order of properties it keeps.

* `isOrdered`            — every property map of the value has its keys in order, as `MojRbTree`
  keeps them.
* `MojObjectBuilder`     — a stack of the containers that are being built.
* `build_visit`          — the events of a value build what is read back of it (`written`).
-/

namespace Db8

namespace MojObject

open Lib

/-! ## Property order -/

mutual
def isOrdered : MojObject → Bool
  | .object ps => isOrderedProps ps
  | .array xs => isOrderedVec xs
  | _ => true

def isOrderedProps : List (MojString × MojObject) → Bool
  | [] => true
  | (k, a) :: ps => isOrdered a && ps.all (fun p => k.compare p.1 = .lt) && isOrderedProps ps

def isOrderedVec : List MojObject → Bool
  | [] => true
  | a :: xs => isOrdered a && isOrderedVec xs
end

theorem isOrderedProps_iff {ps : List (MojString × MojObject)} :
    isOrderedProps ps = true ↔
      (∀ p ∈ ps, p.2.isOrdered = true) ∧ ps.Pairwise fun p q => p.1.compare q.1 = .lt := by
  induction ps with
  | nil => simp [isOrderedProps]
  | cons p ps ih =>
    simp only [isOrderedProps, Bool.and_eq_true, ih, List.all_eq_true, decide_eq_true_eq,
      List.forall_mem_cons, List.pairwise_cons]
    tauto

theorem isOrderedVec_iff {xs : List MojObject} :
    isOrderedVec xs = true ↔ ∀ x ∈ xs, x.isOrdered = true := by
  induction xs with
  | nil => simp [isOrderedVec]
  | cons x xs ih => simp [isOrderedVec, ih]

theorem get_eq_getProp (o : MojObject) (key : MojString) : o.get key = getProp key o.props := by
  cases o <;> rfl

theorem nodup_keys {ps : List (MojString × MojObject)} (h : isOrderedProps ps = true) :
    (ps.map Prod.fst).Nodup := by
  obtain ⟨-, h⟩ := isOrderedProps_iff.mp h
  rw [List.Nodup, List.pairwise_map]
  refine h.imp ?_
  intro p q hlt he
  rw [MojString.compare_eq_iff.mpr he] at hlt
  cases hlt

theorem getProp_eq_some {ps : List (MojString × MojObject)} (h : (ps.map Prod.fst).Nodup) {key : MojString}
    {val : MojObject} : getProp key ps = some val ↔ (key, val) ∈ ps := by
  induction ps with
  | nil => simp [getProp]
  | cons p ps ih =>
    obtain ⟨k, a⟩ := p
    rw [List.map_cons, List.nodup_cons] at h
    by_cases hk : k = key
    · subst hk
      have hnot : (k, val) ∉ ps := fun hmem => h.1 (List.mem_map.mpr ⟨_, hmem, rfl⟩)
      simp [getProp, hnot, eq_comm]
    · have hne : (key, val) ≠ (k, a) := fun he => hk (Prod.mk.inj he).1.symm
      simp [getProp, hk, ih h.2, hne]

theorem isOrderedProps_props {o : MojObject} (h : o.isOrdered = true) : isOrderedProps o.props = true := by
  cases o with
  | object ps => exact h
  | _ => rfl

/-- Of an object whose properties are in order, `get` finds what a walk over them meets. -/
theorem get_eq_some {o : MojObject} (h : o.isOrdered = true) {key : MojString} {val : MojObject} :
    o.get key = some val ↔ (key, val) ∈ o.props := by
  rw [get_eq_getProp, getProp_eq_some (nodup_keys (isOrderedProps_props h))]

/-- `MojObject::push`: a value that is no array becomes one. -/
def push (o val : MojObject) : MojObject :=
  match o with
  | .array xs => .array (xs ++ [val])
  | _ => .array [val]

theorem mem_putProp {key : MojString} {val : MojObject} {ps : List (MojString × MojObject)}
    {q : MojString × MojObject} (h : q ∈ putProp key val ps) : q = (key, val) ∨ q ∈ ps := by
  induction ps with
  | nil =>
    rw [putProp, List.mem_singleton] at h
    exact .inl h
  | cons p ps ih =>
    obtain ⟨k, a⟩ := p
    cases hk : key.compare k with
    | lt =>
      simp only [putProp, hk, List.mem_cons] at h
      simpa using h
    | eq =>
      obtain rfl := MojString.compare_eq_iff.mp hk
      simp only [putProp, hk, List.mem_cons] at h ⊢
      tauto
    | gt =>
      simp only [putProp, hk, List.mem_cons] at h ⊢
      cases h with
      | inl h => exact .inr (.inl h)
      | inr h => exact (ih h).imp id .inr

theorem isOrderedProps_putProp {key : MojString} {val : MojObject}
    {ps : List (MojString × MojObject)} (hval : val.isOrdered = true)
    (h : isOrderedProps ps = true) : isOrderedProps (putProp key val ps) = true := by
  rw [isOrderedProps_iff] at h ⊢
  refine ⟨?_, ?_⟩
  · intro q hq
    rcases mem_putProp hq with rfl | hq
    · exact hval
    · exact h.1 q hq
  · obtain ⟨-, h⟩ := h
    induction ps with
    | nil => exact List.pairwise_singleton _ _
    | cons p ps ih =>
      obtain ⟨k, a⟩ := p
      rw [List.pairwise_cons] at h
      cases hk : key.compare k with
      | lt =>
        simp only [putProp, hk, List.pairwise_cons, List.forall_mem_cons]
        refine ⟨⟨trivial, ?_⟩, h⟩
        intro q hq
        exact lexCompare_eq_lt.mpr ((lexCompare_eq_lt.mp hk).trans (lexCompare_eq_lt.mp (h.1 q hq)))
      | eq =>
        simp only [putProp, hk, List.pairwise_cons]
        exact h
      | gt =>
        simp only [putProp, hk, List.pairwise_cons]
        refine ⟨?_, ih h.2⟩
        intro q hq
        rcases mem_putProp hq with rfl | hq
        · exact lexCompare_eq_lt.mpr (lexCompare_eq_gt.mp hk)
        · exact h.1 q hq

theorem isOrdered_put {o val : MojObject} {key : MojString} (ho : o.isOrdered = true)
    (hval : val.isOrdered = true) : (o.put key val).isOrdered = true := by
  cases o with
  | object ps => exact isOrderedProps_putProp hval ho
  | _ => simp [put, isOrdered, isOrderedProps, hval]

/-- A key behind all others takes its place at the end. -/
theorem putProp_eq_append {key : MojString} {val : MojObject} {ps : List (MojString × MojObject)}
    (h : ∀ p ∈ ps, p.1.compare key = .lt) : putProp key val ps = ps ++ [(key, val)] := by
  induction ps with
  | nil => rfl
  | cons p ps ih =>
    obtain ⟨k, a⟩ := p
    have hk : key.compare k = .gt :=
      lexCompare_eq_gt.mpr (lexCompare_eq_lt.mp (h (k, a) List.mem_cons_self))
    simp only [putProp, hk, List.cons_append]
    rw [ih fun q hq => h q (List.mem_cons_of_mem _ hq)]

theorem object_props_put (o : MojObject) (key : MojString) (val : MojObject) :
    .object (o.put key val).props = o.put key val := by
  cases o <;> rfl

theorem mem_props_put {o val : MojObject} {key : MojString} {p : MojString × MojObject}
    (h : p ∈ (o.put key val).props) : p = (key, val) ∨ p ∈ o.props := by
  cases o with
  | object ps => exact mem_putProp h
  | _ => exact .inl (List.mem_singleton.mp h)

theorem isOrdered_of_mem_props {o : MojObject} (h : o.isOrdered = true) {p : MojString × MojObject}
    (hp : p ∈ o.props) : p.2.isOrdered = true :=
  (isOrderedProps_iff.mp (isOrderedProps_props h)).1 p hp

theorem isDefined_of_mem_props {o : MojObject} (h : o.isDefined = true) {p : MojString × MojObject}
    (hp : p ∈ o.props) : p.2.isDefined = true := by
  cases o with
  | object ps => exact isDefinedProps_iff.mp h p hp
  | _ => cases hp

/-- Maps in key order with the same look-ups are the same. -/
theorem eq_of_getProp {ps qs : List (MojString × MojObject)} (hps : isOrderedProps ps = true)
    (hqs : isOrderedProps qs = true) (h : ∀ key, getProp key ps = getProp key qs) : ps = qs := by
  have hmem : ∀ p, p ∈ ps ↔ p ∈ qs := by
    intro p
    rw [← getProp_eq_some (nodup_keys hps), ← getProp_eq_some (nodup_keys hqs), h]
  have hperm : ps.Perm qs :=
    (List.perm_ext_iff_of_nodup (nodup_keys hps).of_map (nodup_keys hqs).of_map).mpr hmem
  refine List.Perm.eq_of_pairwise ?_ (isOrderedProps_iff.mp hps).2 (isOrderedProps_iff.mp hqs).2 hperm
  intro p q _ _ hpq hqp
  exact absurd (lexCompare_eq_lt.mp hqp) (lexCompare_eq_lt.mp hpq).asymm

/-- The properties put one after the other, as a builder does. -/
def putAll (done ps : List (MojString × MojObject)) : List (MojString × MojObject) :=
  ps.foldl (fun done p => putProp p.1 p.2 done) done

theorem putAll_eq_append {done ps : List (MojString × MojObject)}
    (hord : (done ++ ps).Pairwise fun p q => p.1.compare q.1 = .lt) : putAll done ps = done ++ ps := by
  induction ps generalizing done with
  | nil => exact (List.append_nil done).symm
  | cons p ps ih =>
    have hlast : ∀ q ∈ done, q.1.compare p.1 = .lt := by
      intro q hq
      exact (List.pairwise_append.mp hord).2.2 q hq p List.mem_cons_self
    have hput : putAll done (p :: ps) = putAll (putProp p.1 p.2 done) ps := rfl
    have hord' : ((done ++ [p]) ++ ps).Pairwise fun p q => p.1.compare q.1 = .lt := by
      rwa [List.append_assoc, List.singleton_append]
    rw [hput, putProp_eq_append hlast, ih hord', List.append_assoc, List.singleton_append]

theorem isOrderedProps_putAll {done ps : List (MojString × MojObject)} (hdone : isOrderedProps done = true)
    (hps : ∀ p ∈ ps, p.2.isOrdered = true) : isOrderedProps (putAll done ps) = true := by
  induction ps generalizing done with
  | nil => exact hdone
  | cons p ps ih =>
    exact ih (isOrderedProps_putProp (hps p List.mem_cons_self) hdone) fun q hq => hps q (List.mem_cons_of_mem _ hq)

/-- What is put last stands. -/
theorem getProp_putAll {done ps : List (MojString × MojObject)} (h : (ps.map Prod.fst).Nodup) (key : MojString) :
    getProp key (putAll done ps) = (getProp key ps).or (getProp key done) := by
  induction ps generalizing done with
  | nil => rfl
  | cons p ps ih =>
    obtain ⟨k, a⟩ := p
    rw [List.map_cons, List.nodup_cons] at h
    have hput : putAll done ((k, a) :: ps) = putAll (putProp k a done) ps := rfl
    rw [hput, ih h.2]
    by_cases hk : k = key
    · subst hk
      have hnone : getProp k ps = none := by
        rw [Option.eq_none_iff_forall_ne_some]
        intro val hval
        exact h.1 (List.mem_map.mpr ⟨_, (getProp_eq_some h.2).mp hval, rfl⟩)
      simp [getProp, hnone]
    · rw [getProp_putProp_of_ne (Ne.symm hk)]
      simp [getProp, hk]

end MojObject

open MojObject

/-! ## The builder -/

/-- A container that is being built, and the name it is to be put under. -/
structure MojObjectBuilder.Rec where
  obj : MojObject
  propName : MojString

/-- The innermost container is first in `stack`. -/
structure MojObjectBuilder where
  stack : List MojObjectBuilder.Rec
  obj : MojObject
  propName : MojString

namespace MojObjectBuilder

def init : MojObjectBuilder := ⟨[], .undefined, MojString.empty⟩

def value (b : MojObjectBuilder) (val : MojObject) : MojObjectBuilder :=
  match b.stack with
  | [] => { b with obj := val }
  | rec :: stack =>
    match rec.obj with
    | .object _ => { b with stack := { rec with obj := rec.obj.put b.propName val } :: stack }
    | _ => { b with stack := { rec with obj := rec.obj.push val } :: stack }

def push (b : MojObjectBuilder) (empty : MojObject) : MojObjectBuilder :=
  { b with stack := ⟨empty, b.propName⟩ :: b.stack }

/-- The stack is asserted not to be empty. -/
def pop (b : MojObjectBuilder) : MojObjectBuilder :=
  match b.stack with
  | [] => b
  | rec :: stack => value { b with stack := stack, propName := rec.propName } rec.obj

def call (b : MojObjectBuilder) : Visit → MojObjectBuilder
  | .beginObject => b.push (.object [])
  | .endObject => b.pop
  | .beginArray => b.push (.array [])
  | .endArray => b.pop
  | .propName name => { b with propName := name }
  | .nullValue => b.value .null
  | .boolValue val => b.value (.bool val)
  | .intValue val => b.value (.int val)
  | .decimalValue val => b.value (.decimal val)
  | .stringValue val => b.value (.string val)

def visit (b : MojObjectBuilder) (vs : List Visit) : MojObjectBuilder := vs.foldl call b

theorem visit_append (b : MojObjectBuilder) (vs ws : List Visit) :
    b.visit (vs ++ ws) = (b.visit vs).visit ws := List.foldl_append

theorem visit_cons (b : MojObjectBuilder) (v : Visit) (vs : List Visit) :
    b.visit (v :: vs) = (b.call v).visit vs := rfl

/-- The value the events build. -/
def build (vs : List Visit) : MojObject := (init.visit vs).obj

/-! ### What all values keep -/

/-- The value an event stands for by itself. -/
def leaf : Visit → Option MojObject
  | .nullValue => some .null
  | .boolValue val => some (.bool val)
  | .intValue val => some (.int val)
  | .decimalValue val => some (.decimal val)
  | .stringValue val => some (.string val)
  | _ => none

/-- A property of values that containers inherit from what is put into them. -/
structure Closed (P : MojObject → Prop) : Prop where
  object_nil : P (.object [])
  array_nil : P (.array [])
  put : ∀ {o val : MojObject} {key : MojString}, P o → P val → P (o.put key val)
  push : ∀ {o val : MojObject}, P o → P val → P (o.push val)

def All (P : MojObject → Prop) (b : MojObjectBuilder) : Prop := P b.obj ∧ ∀ rec ∈ b.stack, P rec.obj

section All

variable {P : MojObject → Prop} {b : MojObjectBuilder}

theorem All.value (hP : Closed P) (h : b.All P) {val : MojObject} (hval : P val) : (b.value val).All P := by
  obtain ⟨stack, obj, propName⟩ := b
  obtain ⟨hobj, hstack⟩ := h
  cases stack with
  | nil => exact ⟨hval, by simp [MojObjectBuilder.value]⟩
  | cons rec stack =>
    simp only [List.forall_mem_cons] at hstack
    unfold MojObjectBuilder.value
    split
    · rename_i hnil
      cases hnil
    · rename_i top rest hcons
      cases hcons
      split
      · exact ⟨hobj, by simpa using ⟨hP.put hstack.1 hval, hstack.2⟩⟩
      · exact ⟨hobj, by simpa using ⟨hP.push hstack.1 hval, hstack.2⟩⟩

theorem All.push (h : b.All P) {empty : MojObject} (hempty : P empty) : (b.push empty).All P :=
  ⟨h.1, by simpa [MojObjectBuilder.push] using ⟨hempty, h.2⟩⟩

theorem All.pop (hP : Closed P) (h : b.All P) : b.pop.All P := by
  obtain ⟨stack, obj, propName⟩ := b
  cases stack with
  | nil => exact h
  | cons rec stack =>
    obtain ⟨hobj, hstack⟩ := h
    simp only [List.forall_mem_cons] at hstack
    exact All.value (b := ⟨stack, obj, rec.propName⟩) hP ⟨hobj, hstack.2⟩ hstack.1

theorem All.call (hP : Closed P) (h : b.All P) {v : Visit} (hv : ∀ o, leaf v = some o → P o) :
    (b.call v).All P := by
  cases v with
  | beginObject => exact h.push hP.object_nil
  | endObject => exact h.pop hP
  | beginArray => exact h.push hP.array_nil
  | endArray => exact h.pop hP
  | propName name => exact h
  | _ => exact h.value hP (hv _ rfl)

end All

/-! ### Building a value from its events -/

/-- The events of `o` hand the builder the value `o` is read back as. -/
def BuildsValue (o : MojObject) : Prop :=
  ∀ b : MojObjectBuilder, b.visit o.visit = b.value o.written

/-- Properties that come in any order are put one after the other. -/
theorem visit_putAll {ps : List (MojString × MojObject)} (hps : ∀ p ∈ ps, BuildsValue p.2)
    (done : List (MojString × MojObject)) (stack : List Rec) (obj : MojObject) (outer name : MojString) :
    ∃ name', visit ⟨⟨.object done, outer⟩ :: stack, obj, name⟩ (visitProps ps) =
      ⟨⟨.object (putAll done (writtenProps ps)), outer⟩ :: stack, obj, name'⟩ := by
  induction ps generalizing done name with
  | nil => exact ⟨name, rfl⟩
  | cons p ps ih =>
    obtain ⟨k, a⟩ := p
    have hval := hps (k, a) List.mem_cons_self ⟨⟨.object done, outer⟩ :: stack, obj, k⟩
    obtain ⟨name', hrest⟩ := ih (fun q hq => hps q (List.mem_cons_of_mem _ hq)) (putProp k a.written done) k
    refine ⟨name', ?_⟩
    rw [visitProps, visit_cons, visit_append]
    change visit (visit ⟨⟨.object done, outer⟩ :: stack, obj, k⟩ a.visit) (visitProps ps) = _
    rw [hval]
    change visit ⟨⟨.object (putProp k a.written done), outer⟩ :: stack, obj, k⟩ (visitProps ps) = _
    rw [hrest]
    rfl

theorem visit_visitVec {xs : List MojObject} (hxs : ∀ x ∈ xs, BuildsValue x) (done : List MojObject)
    (stack : List Rec) (obj : MojObject) (outer name : MojString) :
    visit ⟨⟨.array done, outer⟩ :: stack, obj, name⟩ (visitVec xs) =
      ⟨⟨.array (done ++ writtenVec xs), outer⟩ :: stack, obj, name⟩ := by
  induction xs generalizing done with
  | nil => simp [visitVec, writtenVec, visit]
  | cons x xs ih =>
    rw [visitVec, visit_append, hxs x List.mem_cons_self]
    change visit ⟨⟨.array (done ++ [x.written]), outer⟩ :: stack, obj, name⟩ (visitVec xs) = _
    rw [ih fun y hy => hxs y (List.mem_cons_of_mem _ hy), writtenVec, List.append_assoc,
      List.singleton_append]

theorem buildsValue {o : MojObject} (ho : o.isOrdered = true) : BuildsValue o := by
  induction o using inductionOn with
  | object ps ih =>
    intro b
    obtain ⟨stack, obj, name⟩ := b
    rw [isOrdered, isOrderedProps_iff] at ho
    have hord : (([] : List (MojString × MojObject)) ++ writtenProps ps).Pairwise
        fun p q => p.1.compare q.1 = .lt := by
      rw [List.nil_append, writtenProps_eq_map, List.pairwise_map]
      exact ho.2
    obtain ⟨name', hprops⟩ := visit_putAll (fun p hp => ih p hp (ho.1 p hp)) [] stack obj name name
    rw [putAll_eq_append hord] at hprops
    rw [MojObject.visit, visit_cons, visit_append]
    change visit (visit ⟨⟨.object [], name⟩ :: stack, obj, name⟩ (visitProps ps)) [.endObject] = _
    rw [hprops]
    rfl
  | array xs ih =>
    intro b
    obtain ⟨stack, obj, name⟩ := b
    rw [isOrdered, isOrderedVec_iff] at ho
    have hvec := visit_visitVec (fun x hx => ih x hx (ho x hx)) [] stack obj name name
    rw [MojObject.visit, visit_cons, visit_append]
    change visit (visit ⟨⟨.array [], name⟩ :: stack, obj, name⟩ (visitVec xs)) [.endArray] = _
    rw [hvec]
    rfl
  | _ =>
    intro b
    rfl

theorem build_visit {o : MojObject} (ho : o.isOrdered = true) : build o.visit = o.written := by
  rw [build, buildsValue ho]
  rfl

theorem build_visitProps {ps : List (MojString × MojObject)} (hps : ∀ p ∈ ps, p.2.isOrdered = true) :
    build (.beginObject :: (visitProps ps ++ [.endObject])) = .object (putAll [] (writtenProps ps)) := by
  obtain ⟨name, hprops⟩ := visit_putAll (fun p hp => buildsValue (hps p hp)) [] [] .undefined
    MojString.empty MojString.empty
  rw [build, visit_cons, visit_append]
  change (visit (visit ⟨⟨.object [], MojString.empty⟩ :: [], .undefined, MojString.empty⟩ (visitProps ps))
    [.endObject]).obj = _
  rw [hprops]
  rfl

end MojObjectBuilder

end Db8
