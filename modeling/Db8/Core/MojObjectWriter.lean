import Db8.Core.MojObject
import Db8.Lib.OrderCode

/-!
# Core.MojObjectWriter

The serialization of values as bytes, without a token set, and its main property: bytes compare
as values do.

* `MojObjectWriter.write` — the bytes written for one visitor call.
* `MojObject.toBytes`     — the bytes of a value, written call by call.
* `toBytes_orderCode`     — for values without `undefined`, the bytes compare as the values in
  front of any continuations. Every index key is a concatenation of such bytes.
-/

namespace Db8

open Lib

def MojUInt8Max : Int64 := 255
def MojUInt16Max : Int64 := 65535
def MojUInt32Max : Int64 := 4294967295

/-- `MojLexicalCompare`: the first differing byte of the common length decides, then the sizes. -/
def mojLexicalCompare : List MojByte → List MojByte → Ordering
  | a :: data1, b :: data2 => if a ≠ b then cmp a b else mojLexicalCompare data1 data2
  | data1, data2 => cmp data1.length data2.length

theorem mojLexicalCompare_eq (data1 data2 : List MojByte) :
    mojLexicalCompare data1 data2 = lexCompare data1 data2 := by
  induction data1 generalizing data2 with
  | nil => cases data2 <;> simp [mojLexicalCompare, cmp, cmpUsing]
  | cons a data1 ih =>
    cases data2 with
    | nil => simp [mojLexicalCompare, cmp, cmpUsing]
    | cons b data2 =>
      rw [mojLexicalCompare, ih, lexCompare_cons_cons]
      split_ifs with h
      · cases hc : cmp a b <;> simp_all [cmp_eq_eq_iff]
      · obtain rfl := not_not.mp h
        rw [cmp_self_eq_eq]
        rfl

namespace MojDataWriter

def writeUInt8 (val : Nat) : List MojByte := bigEndian 256 1 val
def writeUInt16 (val : Nat) : List MojByte := bigEndian 256 2 val
def writeUInt32 (val : Nat) : List MojByte := bigEndian 256 4 val
/-- Two's complement, most significant byte first. -/
def writeInt64 (val : Int64) : List MojByte := bigEndian 256 8 val.toUInt64.toNat
def writeDecimal (val : MojDecimal) : List MojByte := writeInt64 val.rep
def writeChars (val : MojString) : List MojByte := val.chars

end MojDataWriter

namespace MojObjectWriter

open MojDataWriter

def MarkerObjectEnd : MojByte := 0
def MarkerNullValue : MojByte := 1
def MarkerObjectBegin : MojByte := 2
def MarkerArrayBegin : MojByte := 3
def MarkerStringValue : MojByte := 4
def MarkerFalseValue : MojByte := 5
def MarkerTrueValue : MojByte := 6
def MarkerNegativeDecimalValue : MojByte := 7
def MarkerPositiveDecimalValue : MojByte := 8
def MarkerNegativeIntValue : MojByte := 9
def MarkerZeroIntValue : MojByte := 10
def MarkerUInt8Value : MojByte := 11
def MarkerUInt16Value : MojByte := 12
def MarkerUInt32Value : MojByte := 13
def MarkerInt64Value : MojByte := 14

/-- Only the numbers a marker announces are written: none for zero, the low bytes for a small one. -/
def intValue (val : Int64) : List MojByte :=
  if val < 0 then MarkerNegativeIntValue :: writeInt64 val
  else if val = 0 then [MarkerZeroIntValue]
  else if val ≤ MojUInt8Max then MarkerUInt8Value :: writeUInt8 val.toUInt64.toNat
  else if val ≤ MojUInt16Max then MarkerUInt16Value :: writeUInt16 val.toUInt64.toNat
  else if val ≤ MojUInt32Max then MarkerUInt32Value :: writeUInt32 val.toUInt64.toNat
  else MarkerInt64Value :: writeInt64 val

def decimalValue (val : MojDecimal) : List MojByte :=
  (if val.rep < 0 then MarkerNegativeDecimalValue else MarkerPositiveDecimalValue) :: writeDecimal val

def boolValue (val : Bool) : List MojByte := [if val then MarkerTrueValue else MarkerFalseValue]

def writeString (val : MojString) : List MojByte := MarkerStringValue :: (writeChars val ++ [0])

/-- The bytes written for one call of the visitor. An array ends with the mark of an object's end. -/
def write : MojObject.Visit → List MojByte
  | .beginObject => [MarkerObjectBegin]
  | .endObject => [MarkerObjectEnd]
  | .beginArray => [MarkerArrayBegin]
  | .endArray => [MarkerObjectEnd]
  | .propName name => writeString name
  | .nullValue => [MarkerNullValue]
  | .boolValue val => boolValue val
  | .intValue val => intValue val
  | .decimalValue val => decimalValue val
  | .stringValue val => writeString val

end MojObjectWriter

open MojObjectWriter MojDataWriter

def MojObject.toBytes (o : MojObject) : List MojByte := o.visit.flatMap write

/-! ## Integers and decimals -/

theorem toNat_toUInt64 (val : Int64) :
    (val.toUInt64.toNat : Int) = if val.toInt < 0 then val.toInt + 2 ^ 64 else val.toInt := by
  have hnat : val.toUInt64.toNat = val.toBitVec.toNat := rfl
  have hint : val.toInt = val.toBitVec.toInt := rfl
  have hlt := val.toBitVec.isLt
  rw [hnat, hint, BitVec.toInt_eq_toNat_cond]
  split_ifs <;> omega

/-- Numbers of one sign are in the order of their bit patterns. -/
theorem toUInt64_lt_iff {a b : Int64} (hsign : a < 0 ↔ b < 0) :
    a.toUInt64.toNat < b.toUInt64.toNat ↔ a < b := by
  have ha := toNat_toUInt64 a
  have hb := toNat_toUInt64 b
  rw [Int64.lt_iff_toInt_lt, Int64.lt_iff_toInt_lt, Int64.toInt_zero] at hsign
  rw [Int64.lt_iff_toInt_lt]
  split_ifs at ha hb <;> omega

theorem cmp_toUInt64 {a b : Int64} (hsign : a < 0 ↔ b < 0) :
    cmp a.toUInt64.toNat b.toUInt64.toNat = cmp a b := by
  simp only [cmp, cmpUsing, toUInt64_lt_iff hsign, toUInt64_lt_iff hsign.symm]

theorem writeInt64_compare {a b : Int64} (hsign : a < 0 ↔ b < 0) :
    lexCompare (writeInt64 a) (writeInt64 b) = cmp a b := by
  have ha := a.toUInt64.toNat_lt
  have hb := b.toUInt64.toNat_lt
  rw [writeInt64, writeInt64, lexCompare_bigEndian_of_lt (by omega) (by omega), cmp_toUInt64 hsign]

/-- The marker `intValue` writes first. -/
def intMarker (val : Int64) : MojByte :=
  if val < 0 then MarkerNegativeIntValue
  else if val = 0 then MarkerZeroIntValue
  else if val ≤ MojUInt8Max then MarkerUInt8Value
  else if val ≤ MojUInt16Max then MarkerUInt16Value
  else if val ≤ MojUInt32Max then MarkerUInt32Value
  else MarkerInt64Value

/-- The number of bytes that follow a marker of `intValue`. -/
def intWidth (marker : MojByte) : Nat :=
  if marker = MarkerZeroIntValue then 0
  else if marker = MarkerUInt8Value then 1
  else if marker = MarkerUInt16Value then 2
  else if marker = MarkerUInt32Value then 4
  else 8

theorem intValue_eq (val : Int64) :
    intValue val = intMarker val :: bigEndian 256 (intWidth (intMarker val)) val.toUInt64.toNat := by
  unfold intValue intMarker
  split_ifs <;> rfl

/-- The bounds the chain of tests compares with, as integers. -/
theorem intMarker_eq (val : Int64) : intMarker val =
    if val.toInt < 0 then MarkerNegativeIntValue
    else if val.toInt = 0 then MarkerZeroIntValue
    else if val.toInt ≤ 255 then MarkerUInt8Value
    else if val.toInt ≤ 65535 then MarkerUInt16Value
    else if val.toInt ≤ 4294967295 then MarkerUInt32Value
    else MarkerInt64Value := by
  have h8 : MojUInt8Max.toInt = 255 := by decide
  have h16 : MojUInt16Max.toInt = 65535 := by decide
  have h32 : MojUInt32Max.toInt = 4294967295 := by decide
  simp only [intMarker, Int64.lt_iff_toInt_lt, Int64.le_iff_toInt_le, ← Int64.toInt_inj,
    Int64.toInt_zero, h8, h16, h32]

theorem intMarker_mono {a b : Int64} (h : a.toInt ≤ b.toInt) : intMarker a ≤ intMarker b := by
  rw [intMarker_eq, intMarker_eq]
  split_ifs <;> first | decide | omega

theorem intMarker_neg_iff (a : Int64) : intMarker a = MarkerNegativeIntValue ↔ a < 0 := by
  unfold intMarker
  split_ifs with h
  · simp [h]
  all_goals
    simp only [h, iff_false]
    decide

theorem intMarker_bounds (a : Int64) : 9 ≤ intMarker a ∧ intMarker a ≤ 14 := by
  unfold intMarker
  split_ifs <;> decide

theorem toNat_lt_intWidth (a : Int64) : a.toUInt64.toNat < 256 ^ intWidth (intMarker a) := by
  have ha := toNat_toUInt64 a
  have hlt := a.toUInt64.toNat_lt
  have h9 : intWidth MarkerNegativeIntValue = 8 := by decide
  have h10 : intWidth MarkerZeroIntValue = 0 := by decide
  have h11 : intWidth MarkerUInt8Value = 1 := by decide
  have h12 : intWidth MarkerUInt16Value = 2 := by decide
  have h13 : intWidth MarkerUInt32Value = 4 := by decide
  have h14 : intWidth MarkerInt64Value = 8 := by decide
  rw [intMarker_eq]
  split_ifs at ha ⊢ <;> simp only [h9, h10, h11, h12, h13, h14] <;> omega

theorem intValue_orderCode (a b : Int64) : OrderCodeAt cmp intValue a b := by
  rcases lt_trichotomy (intMarker a) (intMarker b) with h | h | h
  · refine .of_head_lt (intValue_eq a) (intValue_eq b) h ?_
    rw [Int64.cmp_eq_cmp_toInt, cmp_eq_lt_iff]
    by_contra hle
    exact absurd (intMarker_mono (not_lt.mp hle)) (not_le.mpr h)
  · have hsign : a < 0 ↔ b < 0 := by rw [← intMarker_neg_iff, ← intMarker_neg_iff, h]
    have ha := toNat_lt_intWidth a
    have hb := toNat_lt_intWidth b
    refine .of_length_eq (by simp [intValue_eq, h]) ?_
    rw [h] at ha
    rw [intValue_eq, intValue_eq, h, lexCompare_cons_cons, cmp_self_eq_eq,
      lexCompare_bigEndian_of_lt ha hb, cmp_toUInt64 hsign]
    rfl
  · refine .of_head_gt (intValue_eq a) (intValue_eq b) h ?_
    rw [Int64.cmp_eq_cmp_toInt, cmp_eq_gt_iff]
    by_contra hle
    exact absurd (intMarker_mono (not_lt.mp hle)) (not_le.mpr h)

theorem decimalValue_orderCode (d e : MojDecimal) :
    OrderCodeAt (fun d e : MojDecimal => cmp d.rep e.rep) decimalValue d e := by
  have hneg : MarkerNegativeDecimalValue < MarkerPositiveDecimalValue := by decide
  refine .of_length_eq (by simp [decimalValue, writeDecimal, writeInt64]) ?_
  by_cases hd : d.rep < 0 <;> by_cases he : e.rep < 0
  · simp [decimalValue, writeDecimal, hd, he, writeInt64_compare]
  · have hlt : d.rep.toInt < e.rep.toInt := by
      rw [Int64.lt_iff_toInt_lt, Int64.toInt_zero] at hd he
      omega
    simp [decimalValue, hd, he, hneg.cmp_eq_lt, Int64.cmp_eq_cmp_toInt, hlt.cmp_eq_lt]
  · have hlt : e.rep.toInt < d.rep.toInt := by
      rw [Int64.lt_iff_toInt_lt, Int64.toInt_zero] at hd he
      omega
    simp [decimalValue, hd, he, hneg.cmp_eq_gt, Int64.cmp_eq_cmp_toInt, hlt.cmp_eq_gt]
  · simp [decimalValue, writeDecimal, hd, he, writeInt64_compare]

/-! ## Strings and containers -/

theorem writeString_orderCode (s t : MojString) : OrderCodeAt MojString.compare writeString s t := by
  intro u v
  have hfirst : ∀ c ∈ s.chars ++ t.chars, ∃ x w, [c] = x :: w ∧ 0 < x := by
    intro c hc
    refine ⟨c, [], rfl, Fin.pos_iff_ne_zero.mpr ?_⟩
    rintro rfl
    rcases List.mem_append.mp hc with h | h
    exacts [s.nul_free h, t.nul_free h]
  have hchar : ∀ a ∈ s.chars, ∀ b ∈ t.chars, OrderCodeAt cmp (fun c : MojByte => [c]) a b := by
    intro a _ b _ u v
    simp
  have h := OrderCodeAt.terminated hfirst hchar u v
  simp only [List.flatMap_singleton'] at h
  simp only [writeString, writeChars, List.cons_append, List.append_assoc, List.nil_append,
    lexCompare_cons_cons, cmp_self_eq_eq, h]
  rfl

namespace MojObject

@[simp] theorem toBytes_object (ps : List (MojString × MojObject)) :
    toBytes (.object ps) =
      MarkerObjectBegin :: (ps.flatMap (fun p => writeString p.1 ++ toBytes p.2) ++ [MarkerObjectEnd]) := by
  simp [toBytes, visit, visitProps_eq_flatMap, write, List.flatMap_assoc]

@[simp] theorem toBytes_array (xs : List MojObject) :
    toBytes (.array xs) = MarkerArrayBegin :: (xs.flatMap toBytes ++ [MarkerObjectEnd]) := by
  simp only [toBytes, visit, visitVec_eq_flatMap, List.flatMap_cons, List.flatMap_append, write,
    List.flatMap_assoc]
  rfl

@[simp] theorem toBytes_undefined : toBytes .undefined = [MarkerNullValue] := rfl
@[simp] theorem toBytes_null : toBytes .null = [MarkerNullValue] := rfl
@[simp] theorem toBytes_string (s : MojString) : toBytes (.string s) = writeString s := by
  simp [toBytes, visit, write]
@[simp] theorem toBytes_bool (b : Bool) : toBytes (.bool b) = MojObjectWriter.boolValue b := by
  simp [toBytes, visit, write]
@[simp] theorem toBytes_decimal (d : MojDecimal) : toBytes (.decimal d) = decimalValue d := by
  simp [toBytes, visit, write]
@[simp] theorem toBytes_int (i : Int64) : toBytes (.int i) = MojObjectWriter.intValue i := by
  simp [toBytes, visit, write]

/-- The least and the greatest marker a value of the type starts with. -/
def firstMarkers : MojObjectType → MojByte × MojByte
  | .typeUndefined => (MarkerNullValue, MarkerNullValue)
  | .typeNull => (MarkerNullValue, MarkerNullValue)
  | .typeObject => (MarkerObjectBegin, MarkerObjectBegin)
  | .typeArray => (MarkerArrayBegin, MarkerArrayBegin)
  | .typeString => (MarkerStringValue, MarkerStringValue)
  | .typeBool => (MarkerFalseValue, MarkerTrueValue)
  | .typeDecimal => (MarkerNegativeDecimalValue, MarkerPositiveDecimalValue)
  | .typeInt => (MarkerNegativeIntValue, MarkerInt64Value)

theorem toBytes_first (a : MojObject) :
    ∃ x u, toBytes a = x :: u ∧ (firstMarkers a.type).1 ≤ x ∧ x ≤ (firstMarkers a.type).2 := by
  cases a with
  | undefined => exact ⟨_, _, toBytes_undefined, by decide, by decide⟩
  | null => exact ⟨_, _, toBytes_null, by decide, by decide⟩
  | object ps => exact ⟨_, _, toBytes_object ps, le_refl _, le_refl _⟩
  | array xs => exact ⟨_, _, toBytes_array xs, le_refl _, le_refl _⟩
  | string s => exact ⟨_, _, toBytes_string s, le_refl _, le_refl _⟩
  | bool b => cases b <;> exact ⟨_, _, toBytes_bool _, by decide, by decide⟩
  | decimal d =>
    refine ⟨_, _, toBytes_decimal d, ?_⟩
    change MarkerNegativeDecimalValue ≤ _ ∧ _ ≤ MarkerPositiveDecimalValue
    split_ifs <;> decide
  | int i =>
    exact ⟨_, _, (toBytes_int i).trans (intValue_eq i), (intMarker_bounds i).1, (intMarker_bounds i).2⟩

theorem toBytes_first_pos (a : MojObject) : ∃ x u, toBytes a = x :: u ∧ MarkerObjectEnd < x := by
  obtain ⟨x, u, hx, hlo, -⟩ := toBytes_first a
  have hpos : ∀ t, MarkerObjectEnd < (firstMarkers t).1 := by intro t; cases t <;> decide
  exact ⟨x, u, hx, (hpos a.type).trans_le hlo⟩

/-- The markers are in the order of the types. -/
theorem firstMarkers_lt {s t : MojObjectType} (hs : s ≠ .typeUndefined) (h : s.toNat < t.toNat) :
    (firstMarkers s).2 < (firstMarkers t).1 := by
  revert hs h
  cases s <;> cases t <;> decide

theorem type_ne_undefined {a : MojObject} (h : a.isDefined = true) : a.type ≠ .typeUndefined := by
  cases a <;> simp [type, isDefined] at h ⊢

theorem toBytes_orderCode_of_type_ne {a b : MojObject} (ha : a.isDefined = true)
    (hb : b.isDefined = true) (hne : a.type ≠ b.type) : OrderCodeAt compare toBytes a b := by
  obtain ⟨x, u, hx, hxlo, hxhi⟩ := toBytes_first a
  obtain ⟨y, v, hy, hylo, hyhi⟩ := toBytes_first b
  have hne' := fun h => hne (MojObjectType.toNat_injective h)
  rcases lt_or_gt_of_ne hne' with h | h
  · have hlt := firstMarkers_lt (type_ne_undefined ha) h
    refine .of_head_lt hx hy (hxhi.trans_lt (hlt.trans_le hylo)) ?_
    rw [compare_of_type_ne hne, cmp_eq_lt_iff]
    exact h
  · have hlt := firstMarkers_lt (type_ne_undefined hb) h
    refine .of_head_gt hx hy (hyhi.trans_lt (hlt.trans_le hxlo)) ?_
    rw [compare_of_type_ne hne, cmp_eq_gt_iff]
    exact h

/-- **The bytes of values compare as the values.** By induction on the first value: containers end
with a mark below every marker, so the first difference of their elements decides. -/
theorem toBytes_orderCode {a b : MojObject} (ha : a.isDefined = true) (hb : b.isDefined = true) :
    OrderCodeAt compare toBytes a b := by
  induction a using inductionOn generalizing b with
  | undefined => simp [isDefined] at ha
  | null =>
    cases b with
    | null => intro s t; simp [compare, cmp_self_eq_eq]
    | _ => exact toBytes_orderCode_of_type_ne ha hb (by simp [type])
  | object ps ih =>
    cases b with
    | object qs =>
      intro s t
      simp only [isDefined, isDefinedProps_iff] at ha hb
      have hfirst : ∀ p ∈ ps ++ qs,
          ∃ x u, writeString p.1 ++ toBytes p.2 = x :: u ∧ MarkerObjectEnd < x :=
        fun p _ => ⟨_, _, rfl, by decide⟩
      have hprop : ∀ p ∈ ps, ∀ q ∈ qs,
          OrderCodeAt compareFull (fun p => writeString p.1 ++ toBytes p.2) p q :=
        fun p hp q hq => .pair (writeString_orderCode p.1 q.1) (ih p hp (ha p hp) (hb q hq))
      have h := OrderCodeAt.terminated hfirst hprop s t
      simp [compare, compareProps_eq_lexBy, h]
    | _ => exact toBytes_orderCode_of_type_ne ha hb (by simp [type])
  | array xs ih =>
    cases b with
    | array ys =>
      intro s t
      simp only [isDefined, isDefinedVec_iff] at ha hb
      have hfirst : ∀ x ∈ xs ++ ys, ∃ y u, toBytes x = y :: u ∧ MarkerObjectEnd < y :=
        fun x _ => toBytes_first_pos x
      have h := OrderCodeAt.terminated hfirst
        (fun x hx y hy => ih x hx (ha x hx) (hb y hy)) s t
      simp [compare, compareVec_eq_lexBy, h]
    | _ => exact toBytes_orderCode_of_type_ne ha hb (by simp [type])
  | string s =>
    cases b with
    | string t =>
      intro u v
      simpa [compare] using writeString_orderCode s t u v
    | _ => exact toBytes_orderCode_of_type_ne ha hb (by simp [type])
  | bool v =>
    cases b with
    | bool w =>
      cases v <;> cases w <;> exact .of_length_eq rfl rfl
    | _ => exact toBytes_orderCode_of_type_ne ha hb (by simp [type])
  | decimal d =>
    cases b with
    | decimal e =>
      intro u v
      simpa [compare] using decimalValue_orderCode d e u v
    | _ => exact toBytes_orderCode_of_type_ne ha hb (by simp [type])
  | int i =>
    cases b with
    | int j =>
      intro u v
      simpa [compare] using intValue_orderCode i j u v
    | _ => exact toBytes_orderCode_of_type_ne ha hb (by simp [type])

/-- The bytes of a value determine it, and where they end. -/
theorem toBytes_append_inj {a b : MojObject} (ha : a.isDefined = true) (hb : b.isDefined = true)
    {s t : List MojByte} (h : a.toBytes ++ s = b.toBytes ++ t) : a = b ∧ s = t := by
  obtain ⟨hcmp, hst⟩ := (toBytes_orderCode ha hb).eq_of_append_eq h
  exact ⟨compare_eq_iff.mp hcmp, hst⟩

/-! ## What the bytes stand for

`undefined` is written as `null`, so the bytes of a value are those of a value without `undefined`. -/

mutual
/-- The value the bytes of `o` are read back as. -/
def written : MojObject → MojObject
  | .undefined => .null
  | .object ps => .object (writtenProps ps)
  | .array xs => .array (writtenVec xs)
  | o => o

def writtenProps : List (MojString × MojObject) → List (MojString × MojObject)
  | [] => []
  | (k, a) :: ps => (k, written a) :: writtenProps ps

def writtenVec : List MojObject → List MojObject
  | [] => []
  | a :: xs => written a :: writtenVec xs
end

theorem writtenProps_eq_map (ps : List (MojString × MojObject)) :
    writtenProps ps = ps.map fun p => (p.1, written p.2) := by
  induction ps with
  | nil => rfl
  | cons p ps ih => simp [writtenProps, ih]

theorem writtenVec_eq_map (xs : List MojObject) : writtenVec xs = xs.map written := by
  induction xs with
  | nil => rfl
  | cons x xs ih => simp [writtenVec, ih]

theorem written_toBytes (a : MojObject) : (written a).toBytes = a.toBytes := by
  induction a using inductionOn with
  | object ps ih =>
    simp only [written, writtenProps_eq_map, toBytes_object, List.flatMap_map]
    rw [List.flatMap_congr fun p hp => by rw [ih p hp]]
  | array xs ih =>
    simp only [written, writtenVec_eq_map, toBytes_array, List.flatMap_map]
    rw [List.flatMap_congr ih]
  | _ => rfl

theorem isDefined_written (a : MojObject) : (written a).isDefined = true := by
  induction a using inductionOn with
  | object ps ih =>
    simp only [written, writtenProps_eq_map, isDefined, isDefinedProps_iff, List.mem_map]
    rintro _ ⟨p, hp, rfl⟩
    exact ih p hp
  | array xs ih =>
    simp only [written, writtenVec_eq_map, isDefined, isDefinedVec_iff, List.mem_map]
    rintro _ ⟨x, hx, rfl⟩
    exact ih x hx
  | _ => rfl

theorem written_of_isDefined {o : MojObject} (h : o.isDefined = true) : o.written = o := by
  induction o using inductionOn with
  | undefined => cases h
  | object ps ih =>
    rw [isDefined, isDefinedProps_iff] at h
    rw [written, writtenProps_eq_map]
    congr 1
    refine (List.map_congr_left fun p hp => ?_).trans (List.map_id ps)
    rw [ih p hp (h p hp)]
    rfl
  | array xs ih =>
    rw [isDefined, isDefinedVec_iff] at h
    rw [written, writtenVec_eq_map]
    congr 1
    exact (List.map_congr_left fun x hx => ih x hx (h x hx)).trans (List.map_id xs)
  | _ => rfl

theorem written_eq_self_iff {o : MojObject} : o.written = o ↔ o.isDefined = true := by
  refine ⟨fun h => ?_, written_of_isDefined⟩
  rw [← h]
  exact isDefined_written o

/-- No value's bytes begin another's: where the bytes of a value end is known from the bytes. -/
theorem toBytes_prefix_free {a b : MojObject} {s t : List MojByte}
    (h : a.toBytes ++ s = b.toBytes ++ t) : a.toBytes = b.toBytes ∧ s = t := by
  rw [← written_toBytes a, ← written_toBytes b] at h ⊢
  obtain ⟨hab, hst⟩ := toBytes_append_inj (isDefined_written a) (isDefined_written b) h
  exact ⟨congrArg toBytes hab, hst⟩

/-- **Serialization keeps the order**: `MojLexicalCompare` on the bytes has the sign of
`MojObject::compare` on the values. -/
theorem toBytes_compare (a b : MojObject) (ha : a.isDefined = true) (hb : b.isDefined = true) :
    mojLexicalCompare a.toBytes b.toBytes = a.compare b := by
  rw [mojLexicalCompare_eq, (toBytes_orderCode ha hb).compare_eq]

theorem toBytes_compare_array :
    mojLexicalCompare (array [int 255, int (-1)]).toBytes (array [int 255, null, null]).toBytes =
      (array [int 255, int (-1)]).compare (array [int 255, null, null]) :=
  toBytes_compare (array [int 255, int (-1)]) (array [int 255, null, null]) (by decide) (by decide)

end MojObject

end Db8
