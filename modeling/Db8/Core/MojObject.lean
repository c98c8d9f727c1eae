import Db8.Lib.LexOrder

/-!
# Core.MojObject

The dynamically typed values the database stores: `MojObject`, with its comparison, its visitor
and the operations on object properties.

* `MojString` holds NUL-free bytes, so that `strcmp` on the C strings is `lexCompare`.
* `MojObject.compare` is the sign of the `int` the source returns.
* `MojObject.compare_eq_iff` — values that compare equal are equal, hence `DecidableEq`.
-/

namespace Db8

open Lib

abbrev MojByte := Fin 256

instance MojByte.instNeZero : NeZero 256 := ⟨by decide⟩

instance MojByte.instLawfulBEq : LawfulBEq MojByte := inferInstance

/-- The bytes of a C string before its terminator. -/
structure MojString where
  chars : List MojByte
  nul_free : 0 ∉ chars
  deriving DecidableEq

namespace MojString

/-- `MojStrCmp`. -/
def compare (s t : MojString) : Ordering := lexCompare s.chars t.chars

def empty : MojString := ⟨[], by simp⟩

def isEmpty (s : MojString) : Bool := s.chars.isEmpty

theorem compare_eq_iff {s t : MojString} : s.compare t = .eq ↔ s = t := by
  cases s; cases t
  simp [compare, lexCompare_eq_eq]

end MojString

/-- A fixed-point number: `rep` counts millionths. -/
structure MojDecimal where
  rep : Int64
  deriving DecidableEq

theorem Int64.cmp_eq_cmp_toInt (a b : Int64) : cmp a b = cmp a.toInt b.toInt := by
  simp only [cmp, cmpUsing, Int64.lt_iff_toInt_lt]

theorem Int64.cmp_eq_iff {a b : Int64} : cmp a b = .eq ↔ a = b := by
  rw [Int64.cmp_eq_cmp_toInt, cmp_eq_eq_iff, Int64.toInt_inj]

/-- `MojObject::Type`, in the order of the enumeration. -/
inductive MojObjectType where
  | typeUndefined | typeNull | typeObject | typeArray | typeString | typeBool | typeDecimal | typeInt
  deriving DecidableEq

namespace MojObjectType

def toNat : MojObjectType → Nat
  | typeUndefined => 0
  | typeNull => 1
  | typeObject => 2
  | typeArray => 3
  | typeString => 4
  | typeBool => 5
  | typeDecimal => 6
  | typeInt => 7

theorem toNat_injective : Function.Injective toNat := by
  intro s t
  cases s <;> cases t <;> simp [toNat]

end MojObjectType

/-- The properties of an `object` are the nodes of its `PropMap` in key order. -/
inductive MojObject where
  | undefined
  | null
  | object (props : List (MojString × MojObject))
  | array (vec : List MojObject)
  | string (val : MojString)
  | bool (val : Bool)
  | decimal (val : MojDecimal)
  | int (val : Int64)

namespace MojObject

/-- Induction over a value, with the hypothesis for every property and every element. -/
@[elab_as_elim]
theorem inductionOn {P : MojObject → Prop} (o : MojObject)
    (undefined : P .undefined) (null : P .null)
    (object : ∀ ps : List (MojString × MojObject), (∀ p ∈ ps, P p.2) → P (.object ps))
    (array : ∀ xs : List MojObject, (∀ x ∈ xs, P x) → P (.array xs))
    (string : ∀ s, P (.string s)) (bool : ∀ b, P (.bool b))
    (decimal : ∀ d, P (.decimal d)) (int : ∀ i, P (.int i)) : P o := by
  refine @MojObject.rec P (fun ps => ∀ p ∈ ps, P p.2) (fun xs => ∀ x ∈ xs, P x) (fun p => P p.2)
    undefined null object array string bool decimal int ?_ ?_ ?_ ?_ ?_ o
  · intro p hp; cases hp
  · intro p ps hp hps q hq
    rcases List.mem_cons.mp hq with rfl | hq
    exacts [hp, hps q hq]
  · intro x hx; cases hx
  · intro x xs hx hxs y hy
    rcases List.mem_cons.mp hy with rfl | hy
    exacts [hx, hxs y hy]
  · intro key val hval; exact hval

def type : MojObject → MojObjectType
  | .undefined => .typeUndefined
  | .null => .typeNull
  | .object _ => .typeObject
  | .array _ => .typeArray
  | .string _ => .typeString
  | .bool _ => .typeBool
  | .decimal _ => .typeDecimal
  | .int _ => .typeInt

/-! ## Comparison -/

mutual
/-- The difference of the types decides, then the comparison of the type. -/
def compare : MojObject → MojObject → Ordering
  | .object ps, .object qs => compareProps ps qs
  | .array xs, .array ys => compareVec xs ys
  | .string s, .string t => s.compare t
  | .bool a, .bool b => cmp a b
  | .decimal d, .decimal e => cmp d.rep e.rep
  | .int i, .int j => cmp i j
  | a, b => cmp a.type.toNat b.type.toNat

/-- `MojRbTreeBase::compare` on two property maps; `compareFull` looks at the key, then the value. -/
def compareProps : List (MojString × MojObject) → List (MojString × MojObject) → Ordering
  | [], [] => .eq
  | [], _ :: _ => .lt
  | _ :: _, [] => .gt
  | (k, a) :: ps, (l, b) :: qs => ((k.compare l).then (compare a b)).then (compareProps ps qs)

/-- `MojVector::compare`. -/
def compareVec : List MojObject → List MojObject → Ordering
  | [], [] => .eq
  | [], _ :: _ => .lt
  | _ :: _, [] => .gt
  | a :: xs, b :: ys => (compare a b).then (compareVec xs ys)
end

theorem compareVec_eq_lexBy (xs ys : List MojObject) : compareVec xs ys = lexBy compare xs ys := by
  induction xs generalizing ys with
  | nil => cases ys <;> simp [compareVec]
  | cons x xs ih => cases ys <;> simp [compareVec, ih]

/-- `compareFull` on two nodes of a property map. -/
def compareFull (p q : MojString × MojObject) : Ordering := (p.1.compare q.1).then (compare p.2 q.2)

theorem compareProps_eq_lexBy (ps qs : List (MojString × MojObject)) :
    compareProps ps qs = lexBy compareFull ps qs := by
  induction ps generalizing qs with
  | nil => cases qs <;> simp [compareProps]
  | cons p ps ih => cases qs <;> simp [compareProps, compareFull, ih]

theorem compare_of_type_ne {a b : MojObject} (h : a.type ≠ b.type) :
    compare a b = cmp a.type.toNat b.type.toNat := by
  cases a <;> cases b <;> first | (exact absurd rfl h) | simp [compare]

theorem type_eq_of_compare_eq {a b : MojObject} (h : compare a b = .eq) : a.type = b.type := by
  by_contra hne
  rw [compare_of_type_ne hne, cmp_eq_eq_iff] at h
  exact hne (MojObjectType.toNat_injective h)

theorem compare_eq_iff_of_type_ne {a b : MojObject} (h : a.type ≠ b.type) :
    compare a b = .eq ↔ a = b :=
  ⟨fun hc => absurd (type_eq_of_compare_eq hc) h, fun he => absurd (congrArg type he) h⟩

theorem compare_eq_iff {a b : MojObject} : compare a b = .eq ↔ a = b := by
  induction a using inductionOn generalizing b with
  | undefined =>
    cases b with
    | undefined => simp [compare, cmp_self_eq_eq]
    | _ => exact compare_eq_iff_of_type_ne (by simp [type])
  | null =>
    cases b with
    | null => simp [compare, cmp_self_eq_eq]
    | _ => exact compare_eq_iff_of_type_ne (by simp [type])
  | object ps ih =>
    cases b with
    | object qs =>
      have hfull : ∀ p ∈ ps, ∀ q, compareFull p q = .eq ↔ p = q := by
        intro p hp q
        rw [compareFull, Ordering.then_eq_eq, MojString.compare_eq_iff, ih p hp, Prod.ext_iff]
      rw [compare, compareProps_eq_lexBy, lexBy_eq_iff hfull, object.injEq]
    | _ => exact compare_eq_iff_of_type_ne (by simp [type])
  | array xs ih =>
    cases b with
    | array ys => rw [compare, compareVec_eq_lexBy, lexBy_eq_iff (fun x hx _ => ih x hx), array.injEq]
    | _ => exact compare_eq_iff_of_type_ne (by simp [type])
  | string s =>
    cases b with
    | string t => rw [compare, MojString.compare_eq_iff, string.injEq]
    | _ => exact compare_eq_iff_of_type_ne (by simp [type])
  | bool v =>
    cases b with
    | bool w => rw [compare, cmp_eq_eq_iff, bool.injEq]
    | _ => exact compare_eq_iff_of_type_ne (by simp [type])
  | decimal d =>
    cases b with
    | decimal e =>
      rw [compare, Int64.cmp_eq_iff, decimal.injEq]
      cases d; cases e; simp
    | _ => exact compare_eq_iff_of_type_ne (by simp [type])
  | int i =>
    cases b with
    | int j => rw [compare, Int64.cmp_eq_iff, int.injEq]
    | _ => exact compare_eq_iff_of_type_ne (by simp [type])

/-- `operator==`: values are equal when they compare equal. -/
instance : DecidableEq MojObject := fun _ _ => decidable_of_iff _ compare_eq_iff

/-! ## Visiting -/

/-- The calls a `MojObjectVisitor` receives. -/
inductive Visit where
  | beginObject | endObject | beginArray | endArray
  | propName (name : MojString)
  | nullValue
  | boolValue (val : Bool)
  | intValue (val : Int64)
  | decimalValue (val : MojDecimal)
  | stringValue (val : MojString)
  deriving DecidableEq

mutual
/-- `UndefinedImpl` inherits the visit of `NullImpl`. -/
def visit : MojObject → List Visit
  | .undefined => [.nullValue]
  | .null => [.nullValue]
  | .object ps => .beginObject :: (visitProps ps ++ [.endObject])
  | .array xs => .beginArray :: (visitVec xs ++ [.endArray])
  | .string s => [.stringValue s]
  | .bool b => [.boolValue b]
  | .decimal d => [.decimalValue d]
  | .int i => [.intValue i]

def visitProps : List (MojString × MojObject) → List Visit
  | [] => []
  | (k, a) :: ps => .propName k :: (visit a ++ visitProps ps)

def visitVec : List MojObject → List Visit
  | [] => []
  | a :: xs => visit a ++ visitVec xs
end

theorem visitProps_eq_flatMap (ps : List (MojString × MojObject)) :
    visitProps ps = ps.flatMap fun p => .propName p.1 :: visit p.2 := by
  induction ps with
  | nil => rfl
  | cons p ps ih => simp [visitProps, ih]

theorem visitVec_eq_flatMap (xs : List MojObject) : visitVec xs = xs.flatMap visit := by
  induction xs with
  | nil => rfl
  | cons x xs ih => simp [visitVec, ih]

/-! ## Values without `undefined` -/

mutual
/-- No part of the value is `undefined`. -/
def isDefined : MojObject → Bool
  | .undefined => false
  | .object ps => isDefinedProps ps
  | .array xs => isDefinedVec xs
  | _ => true

def isDefinedProps : List (MojString × MojObject) → Bool
  | [] => true
  | (_, a) :: ps => isDefined a && isDefinedProps ps

def isDefinedVec : List MojObject → Bool
  | [] => true
  | a :: xs => isDefined a && isDefinedVec xs
end

theorem isDefinedProps_iff {ps : List (MojString × MojObject)} :
    isDefinedProps ps = true ↔ ∀ p ∈ ps, p.2.isDefined = true := by
  induction ps with
  | nil => simp [isDefinedProps]
  | cons p ps ih => simp [isDefinedProps, ih]

theorem isDefinedVec_iff {xs : List MojObject} :
    isDefinedVec xs = true ↔ ∀ x ∈ xs, x.isDefined = true := by
  induction xs with
  | nil => simp [isDefinedVec]
  | cons x xs ih => simp [isDefinedVec, ih]

/-! ## Properties -/

/-- `MojMap::put` on the nodes of the map: the value of an existing key is replaced, and a new key
takes its place in key order. -/
def putProp (key : MojString) (val : MojObject) :
    List (MojString × MojObject) → List (MojString × MojObject)
  | [] => [(key, val)]
  | (k, a) :: ps =>
    match key.compare k with
    | .lt => (key, val) :: (k, a) :: ps
    | .eq => (k, val) :: ps
    | .gt => (k, a) :: putProp key val ps

def getProp (key : MojString) : List (MojString × MojObject) → Option MojObject
  | [] => none
  | (k, a) :: ps => if k = key then some a else getProp key ps

/-- `MojObject::get`: `false` (here `none`) for a value that is no object. -/
def get (o : MojObject) (key : MojString) : Option MojObject :=
  match o with
  | .object ps => getProp key ps
  | _ => none

/-- `MojObject::put`: a value that is no object becomes one. -/
def put (o : MojObject) (key : MojString) (val : MojObject) : MojObject :=
  match o with
  | .object ps => .object (putProp key val ps)
  | _ => .object [(key, val)]

/-- `MojObject::del`. -/
def del (o : MojObject) (key : MojString) : MojObject :=
  match o with
  | .object ps => .object (ps.filter fun p => p.1 ≠ key)
  | o => o

/-- The property nodes of a value; a value that is no object has none. -/
def props : MojObject → List (MojString × MojObject)
  | .object ps => ps
  | _ => []

/-- `MojObject::boolValue`. -/
def boolValue : MojObject → Bool
  | .undefined => false
  | .null => false
  | .object ps => !ps.isEmpty
  | .array xs => !xs.isEmpty
  | .string s => !s.isEmpty
  | .bool b => b
  | .decimal d => d.rep ≠ 0
  | .int i => i ≠ 0

@[simp] theorem getProp_putProp_self (key : MojString) (val : MojObject)
    (ps : List (MojString × MojObject)) : getProp key (putProp key val ps) = some val := by
  induction ps with
  | nil => simp [putProp, getProp]
  | cons p ps ih =>
    obtain ⟨k, a⟩ := p
    cases h : key.compare k with
    | lt => simp [putProp, h, getProp]
    | eq =>
      obtain rfl := MojString.compare_eq_iff.mp h
      simp [putProp, h, getProp]
    | gt =>
      have hne : k ≠ key := by
        rintro rfl
        rw [MojString.compare_eq_iff.mpr rfl] at h
        cases h
      simp [putProp, h, getProp, hne, ih]

theorem getProp_putProp_of_ne {key key' : MojString} (hne : key' ≠ key) (val : MojObject)
    (ps : List (MojString × MojObject)) :
    getProp key' (putProp key val ps) = getProp key' ps := by
  induction ps with
  | nil => simp [putProp, getProp, hne.symm]
  | cons p ps ih =>
    obtain ⟨k, a⟩ := p
    cases h : key.compare k with
    | lt => simp [putProp, h, getProp, hne.symm]
    | eq =>
      obtain rfl := MojString.compare_eq_iff.mp h
      simp [putProp, h, getProp, hne.symm]
    | gt => simp [putProp, h, getProp, ih]

@[simp] theorem get_put_self (o : MojObject) (key : MojString) (val : MojObject) :
    (o.put key val).get key = some val := by
  cases o <;> simp [put, get, getProp]

theorem get_put_of_ne {key key' : MojString} (hne : key' ≠ key) (o : MojObject) (val : MojObject) :
    (o.put key val).get key' = o.get key' := by
  cases o with
  | object ps => exact getProp_putProp_of_ne hne val ps
  | _ => simp [put, get, getProp, hne.symm]

theorem getProp_filter (key key' : MojString) (ps : List (MojString × MojObject)) :
    getProp key (ps.filter fun p => p.1 ≠ key') = if key = key' then none else getProp key ps := by
  induction ps with
  | nil => simp [getProp]
  | cons p ps ih =>
    obtain ⟨k, a⟩ := p
    by_cases hk : k = key'
    · subst hk
      by_cases hkey : k = key
      · subst hkey
        simpa [getProp] using ih
      · simpa [getProp, hkey] using ih
    · by_cases hkey : k = key
      · subst hkey
        simp [getProp, hk]
      · simpa [getProp, hkey, hk] using ih

theorem getProp_append (key : MojString) (ps qs : List (MojString × MojObject)) :
    getProp key (ps ++ qs) = (getProp key ps).or (getProp key qs) := by
  induction ps with
  | nil => rfl
  | cons p ps ih =>
    obtain ⟨k, a⟩ := p
    by_cases hk : k = key
    · simp [getProp, hk]
    · simpa [getProp, hk] using ih

theorem get_del (o : MojObject) (key key' : MojString) :
    (o.del key').get key = if key = key' then none else o.get key := by
  cases o with
  | object ps => exact getProp_filter key key' ps
  | _ => simp [del, get]

end MojObject

end Db8
