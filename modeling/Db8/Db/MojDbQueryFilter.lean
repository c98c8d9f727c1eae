import Db8.Core.MojString
import Db8.Db.MojDbQueryMatch

/-!
# Db.MojDbQueryFilter

The filter clauses of a query, tested on an object.

* `findValue`      — the values at a path, arrays on the way and at the end taken element by element.
* `findSubString`  — the first alternative that stands in a string, and where.
* `test`           — every clause has a value that passes both of its parts.
* `test_spec`      — what the clauses ask of the object.
-/

namespace Db8

open Lib

/-! ## Text -/

abbrev UChar := UInt16

namespace Icu

def IsLead (c : UChar) : Prop := 0xD800 ≤ c ∧ c ≤ 0xDBFF

def IsTrail (c : UChar) : Prop := 0xDC00 ≤ c ∧ c ≤ 0xDFFF

instance (c : UChar) : Decidable (IsLead c) := inferInstanceAs (Decidable (_ ∧ _))

instance (c : UChar) : Decidable (IsTrail c) := inferInstanceAs (Decidable (_ ∧ _))

/-- The substring stands at the index, and neither end is inside a surrogate pair. -/
def OccursAt (s sub : List UChar) (i : Nat) : Prop :=
  sub <+: s.drop i ∧
    ¬ ((∃ c ∈ sub.head?, IsTrail c) ∧ ∃ c ∈ (s.take i).getLast?, IsLead c) ∧
    ¬ ((∃ c ∈ sub.getLast?, IsLead c) ∧ ∃ c ∈ (s.drop (i + sub.length)).head?, IsTrail c)

instance (s sub : List UChar) (i : Nat) : Decidable (OccursAt s sub i) := inferInstanceAs (Decidable (_ ∧ _ ∧ _))

/-- The first index where the substring stands. -/
def firstIndex (s sub : List UChar) : Option Nat := (List.range (s.length + 1)).find? fun i => OccursAt s sub i

end Icu

/-- The services of the Unicode library: `u_strFromUTF8` (`none`: malformed text), `u_strToUpper` without a locale, and
`u_strstr` with what it returns. -/
structure Icu where
  strFromUTF8 : MojString → Option (List UChar)
  strToUpper : List UChar → List UChar
  strstr : List UChar → List UChar → Option Nat
  strstr_first : ∀ s sub, strstr s sub = Icu.firstIndex s sub

namespace Icu

variable {icu : Icu} {s sub : List UChar}

theorem strstr_isSome : (icu.strstr s sub).isSome = true ↔ ∃ i ≤ s.length, OccursAt s sub i := by
  rw [strstr_first, firstIndex, List.find?_isSome]
  simp

theorem strstr_eq_zero : icu.strstr s sub = some 0 ↔ OccursAt s sub 0 := by
  rw [strstr_first, firstIndex, List.range_succ_eq_map, List.find?_cons]
  by_cases h : OccursAt s sub 0
  · simp [h]
  · simp [h]

end Icu

/-- `MojDbTextUtils::strToUpper` for no locale: the buffer has room for twice the characters. -/
def MojDbTextUtils.strToUpper (icu : Icu) (src : MojString) : Except MojErr (List UChar) :=
  match icu.strFromUTF8 src with
  | none => .error .dbUnicode
  | some chars =>
    if (icu.strToUpper chars).length > chars.length * 2 then .error .dbUnicode else .ok (icu.strToUpper chars)

namespace MojDbQueryFilter

/-! ## The source -/

mutual
/-- An array takes the key again in each element; a value without the key gives nothing. -/
def descend (key : MojString) (next : MojObject → List MojObject → List MojObject × Bool) :
    MojObject → List MojObject → List MojObject × Bool
  | .array vec, valOut => (descendAll key next vec valOut, !(descendAll key next vec valOut).isEmpty)
  | obj, valOut =>
    match obj.get key with
    | none => (valOut, false)
    | some childObj => next childObj valOut

def descendAll (key : MojString) (next : MojObject → List MojObject → List MojObject × Bool) :
    List MojObject → List MojObject → List MojObject
  | [], valOut => valOut
  | childObj :: vec, valOut => descendAll key next vec (descend key next childObj valOut).1
end

/-- `findValue` from a key of the path on. The elements of an array at the end lose their `_id`. -/
def findValue : List MojString → MojObject → List MojObject → List MojObject × Bool
  | [], .array vec, valOut => (valOut ++ vec.map fun val => val.del MojDb.IdKey, true)
  | [], childObj, valOut => (valOut ++ [childObj], true)
  | key :: keys, childObj, valOut => descend key (findValue keys) childObj valOut

/-- `pos` is `none` for `-1`. -/
structure FindSubStringResult where
  pos : Option Nat
  srcIsEmpty : Bool
  subStringIsEmpty : Bool

namespace FindSubStringResult

def none : FindSubStringResult := ⟨.none, false, false⟩

def isFound (ret : FindSubStringResult) : Bool := ret.pos.isSome || (ret.srcIsEmpty && ret.subStringIsEmpty)

end FindSubStringResult

/-- `findSubString` for a clause value that is no array. -/
def findOne (icu : Icu) (src subString : MojObject) : Except MojErr FindSubStringResult :=
  match src, subString with
  | .string srcStr, .string subStringStr =>
    if srcStr.isEmpty || subStringStr.isEmpty then .ok ⟨none, srcStr.isEmpty, subStringStr.isEmpty⟩
    else
      match MojDbTextUtils.strToUpper icu srcStr with
      | .error err => .error err
      | .ok srcOut =>
        match MojDbTextUtils.strToUpper icu subStringStr with
        | .error err => .error err
        | .ok subStringOut => .ok ⟨icu.strstr srcOut subStringOut, false, false⟩
  | _, _ => .ok .none

mutual
def findSubString (icu : Icu) (src : MojObject) : MojObject → Except MojErr FindSubStringResult
  | .array vec => findFirst icu src vec
  | subString => findOne icu src subString

/-- The alternatives in turn, up to the first that is found. -/
def findFirst (icu : Icu) (src : MojObject) : List MojObject → Except MojErr FindSubStringResult
  | [] => .ok .none
  | i :: vec =>
    match findSubString icu src i with
    | .error err => .error err
    | .ok ret => if ret.isFound then .ok ret else findFirst icu src vec
end

def testLower (icu : Icu) (clause : WhereClause) (val : MojObject) : Except MojErr Bool :=
  match clause.lowerOp with
  | .opNone => .ok true
  | .opEq =>
    match clause.lowerVal with
    | .array vec => .ok (vec.any fun i => val.compare i = .eq)
    | lowerVal => .ok (val.compare lowerVal = .eq)
  | .opNotEq => .ok (val.compare clause.lowerVal ≠ .eq)
  | .opGreaterThan => .ok (val.compare clause.lowerVal = .gt)
  | .opGreaterThanEq => .ok (val.compare clause.lowerVal ≠ .lt)
  | .opSubString => (findSubString icu val clause.lowerVal).map fun res => res.isFound
  | .opPrefix =>
    (findSubString icu val clause.lowerVal).map fun res =>
      res.isFound && res.pos = some 0 || (res.srcIsEmpty && res.subStringIsEmpty)
  | _ => .ok false

def testUpper (clause : WhereClause) (val : MojObject) : Bool :=
  match clause.upperOp with
  | .opNone => true
  | .opLessThan => val.compare clause.upperVal = .lt
  | .opLessThanEq => val.compare clause.upperVal ≠ .gt
  | _ => false

/-- The loop over the values found for one clause. -/
def testVals (icu : Icu) (clause : WhereClause) : List MojObject → Except MojErr Bool
  | [] => .ok false
  | val :: objVals =>
    match testLower icu clause val with
    | .error err => .error err
    | .ok testResult =>
      if testResult && testUpper clause val then .ok true else testVals icu clause objVals

/-- `test` on the clauses in the order of the map. -/
def test (icu : Icu) : WhereMap → MojObject → Except MojErr Bool
  | [], _ => .ok true
  | (key, clause) :: clauses, obj =>
    if (findValue (key.split MojDbPropExtractor.PropComponentSeparator) obj []).2 then
      match testVals icu clause (findValue (key.split MojDbPropExtractor.PropComponentSeparator) obj []).1 with
      | .error err => .error err
      | .ok testResult => if testResult then test icu clauses obj else .ok false
    else .ok false

/-! ## What the clauses ask -/

/-- The value stands at the path: arrays on the way are taken element by element, and an array at the end stands for
its elements, without their `_id`. -/
inductive At : List MojString → MojObject → MojObject → Prop where
  | elem {key : MojString} {keys : List MojString} {vec : List MojObject} {child val : MojObject} :
      child ∈ vec → At (key :: keys) child val → At (key :: keys) (.array vec) val
  | prop {key : MojString} {keys : List MojString} {obj child val : MojObject} :
      obj.isArray = false → obj.get key = some child → At keys child val → At (key :: keys) obj val
  | last {val : MojObject} : val.isArray = false → At [] val val
  | lastElem {vec : List MojObject} {val : MojObject} : val ∈ vec → At [] (.array vec) (val.del MojDb.IdKey)

mutual
/-- The texts a clause value lists, arrays in it included. -/
def leaves : MojObject → List MojObject
  | .array vec => leavesVec vec
  | val => [val]

def leavesVec : List MojObject → List MojObject
  | [] => []
  | val :: vec => leaves val ++ leavesVec vec
end

/-- The upper case of a text. -/
def upper (icu : Icu) (s : MojString) : List UChar :=
  match icu.strFromUTF8 s with
  | none => []
  | some chars => icu.strToUpper chars

/-- The text is well formed and its upper case leaves room for the terminator. -/
def HasUpper (icu : Icu) (s : MojString) : Prop :=
  ∃ chars, icu.strFromUTF8 s = some chars ∧ (icu.strToUpper chars).length < chars.length * 2

/-- Both are texts, and the second stands in the first, apart from case: somewhere, or at the start. An empty text
stands in an empty text only. -/
def Stands (icu : Icu) (P : Nat → Prop) : MojObject → MojObject → Prop
  | .string src, .string sub =>
    (src.isEmpty = true ∧ sub.isEmpty = true) ∨
      (src.isEmpty = false ∧ sub.isEmpty = false ∧ ∃ i, P i ∧ Icu.OccursAt (upper icu src) (upper icu sub) i)
  | _, _ => False

def Contains (icu : Icu) (src sub : MojObject) : Prop := Stands icu (fun _ => True) src sub

def Begins (icu : Icu) (src sub : MojObject) : Prop := Stands icu (fun i => i = 0) src sub

def LowerHolds (icu : Icu) (clause : WhereClause) (val : MojObject) : Prop :=
  match clause.lowerOp with
  | .opNone => True
  | .opEq => val ∈ clause.lowerVal.alternatives
  | .opNotEq => val ≠ clause.lowerVal
  | .opGreaterThan => val.compare clause.lowerVal = .gt
  | .opGreaterThanEq => val.compare clause.lowerVal ≠ .lt
  | .opSubString => ∃ alt ∈ leaves clause.lowerVal, Contains icu val alt
  | .opPrefix => ∃ alt ∈ leaves clause.lowerVal, Begins icu val alt
  | _ => False

def UpperHolds (clause : WhereClause) (val : MojObject) : Prop :=
  match clause.upperOp with
  | .opNone => True
  | .opLessThan => val.compare clause.upperVal = .lt
  | .opLessThanEq => val.compare clause.upperVal ≠ .gt
  | _ => False

/-- The path of a clause. -/
def pathOf (key : MojString) : List MojString := key.split MojDbPropExtractor.PropComponentSeparator

def Holds (icu : Icu) (key : MojString) (clause : WhereClause) (obj : MojObject) : Prop :=
  ∃ val, At (pathOf key) obj val ∧ LowerHolds icu clause val ∧ UpperHolds clause val

/-! ## Values -/

section

variable {key : MojString} {keys : List MojString} {next : MojObject → List MojObject → List MojObject × Bool}

theorem at_array_iff {vec : List MojObject} {val : MojObject} :
    At (key :: keys) (.array vec) val ↔ ∃ child ∈ vec, At (key :: keys) child val := by
  refine ⟨fun h => ?_, fun h => ?_⟩
  · cases h with
    | elem hmem h => exact ⟨_, hmem, h⟩
    | prop harr => cases harr
  · obtain ⟨child, hmem, h⟩ := h
    exact .elem hmem h

theorem at_cons_iff {obj val : MojObject} (harr : obj.isArray = false) :
    At (key :: keys) obj val ↔ ∃ child, obj.get key = some child ∧ At keys child val := by
  refine ⟨fun h => ?_, fun h => ?_⟩
  · cases h with
    | elem hmem h => cases harr
    | prop _ hget h => exact ⟨_, hget, h⟩
  · obtain ⟨child, hget, h⟩ := h
    exact .prop harr hget h

theorem descendAll_spec (vec : List MojObject) (hdescend : ∀ child ∈ vec, ∀ valOut, ∃ vals,
      (descend key next child valOut).1 = valOut ++ vals ∧ ∀ val, val ∈ vals ↔ At (key :: keys) child val)
    (valOut : List MojObject) : ∃ vals, descendAll key next vec valOut = valOut ++ vals ∧
      ∀ val, val ∈ vals ↔ ∃ child ∈ vec, At (key :: keys) child val := by
  induction vec generalizing valOut with
  | nil => exact ⟨[], by simp [descendAll], by simp⟩
  | cons child vec ih =>
    obtain ⟨vals, hout, hvals⟩ := hdescend child List.mem_cons_self valOut
    obtain ⟨vals', hout', hvals'⟩ := ih (fun c hc => hdescend c (.tail _ hc)) (valOut ++ vals)
    refine ⟨vals ++ vals', ?_, fun val => ?_⟩
    · rw [descendAll, hout, hout', List.append_assoc]
    · rw [List.mem_append, hvals, hvals']
      simp

theorem descend_of_not_array {obj : MojObject} (harr : obj.isArray = false) (valOut : List MojObject) :
    descend key next obj valOut = match obj.get key with
      | none => (valOut, false)
      | some childObj => next childObj valOut := by
  cases obj <;> first | rfl | cases harr

/-- Induction on the object: an array takes the key again, anything else goes on with the next key. -/
theorem descend_spec (hnext : ∀ obj valOut, ∃ vals, (next obj valOut).1 = valOut ++ vals ∧ ∀ val, val ∈ vals ↔ At keys obj val)
    (obj : MojObject) (valOut : List MojObject) :
    ∃ vals, (descend key next obj valOut).1 = valOut ++ vals ∧ ∀ val, val ∈ vals ↔ At (key :: keys) obj val := by
  have hplain : ∀ obj : MojObject, obj.isArray = false → ∀ valOut, ∃ vals, (descend key next obj valOut).1 = valOut ++ vals ∧
      ∀ val, val ∈ vals ↔ At (key :: keys) obj val := by
    intro obj harr valOut
    rw [descend_of_not_array harr]
    cases hget : obj.get key with
    | none =>
      refine ⟨[], by simp, fun val => ?_⟩
      rw [at_cons_iff harr, hget]
      simp
    | some child =>
      obtain ⟨vals, hout, hvals⟩ := hnext child valOut
      refine ⟨vals, hout, fun val => ?_⟩
      rw [at_cons_iff harr, hget, hvals]
      simp
  induction obj using MojObject.inductionOn generalizing valOut with
  | array vec ih =>
    obtain ⟨vals, hout, hvals⟩ := descendAll_spec vec ih valOut
    exact ⟨vals, hout, fun val => (hvals val).trans at_array_iff.symm⟩
  | _ => exact hplain _ rfl valOut

end

theorem findValue_spec (keys : List MojString) (obj : MojObject) (valOut : List MojObject) :
    ∃ vals, (findValue keys obj valOut).1 = valOut ++ vals ∧ ∀ val, val ∈ vals ↔ At keys obj val := by
  induction keys generalizing obj valOut with
  | nil =>
    have hplain : ∀ obj : MojObject, obj.isArray = false → ∀ val, val ∈ [obj] ↔ At [] obj val := by
      intro obj harr val
      rw [List.mem_singleton]
      refine ⟨fun he => ?_, fun h => ?_⟩
      · subst he
        exact .last harr
      cases h with
      | last _ => rfl
      | lastElem _ => cases harr
    cases obj with
    | array vec =>
      refine ⟨vec.map fun val => val.del MojDb.IdKey, rfl, fun val => ?_⟩
      rw [List.mem_map]
      refine ⟨fun h => ?_, fun h => ?_⟩
      · obtain ⟨child, hmem, rfl⟩ := h
        exact .lastElem hmem
      · cases h with
        | last harr => cases harr
        | lastElem hmem => exact ⟨_, hmem, rfl⟩
    | _ => exact ⟨[_], rfl, hplain _ rfl⟩
  | cons key keys ih => exact descend_spec ih obj valOut

theorem findValue_eq_nil {keys : List MojString} {obj : MojObject} (h : (findValue keys obj []).2 = false) :
    (findValue keys obj []).1 = [] := by
  induction keys generalizing obj with
  | nil => cases obj <;> cases h
  | cons key keys ih =>
    rw [findValue] at h ⊢
    by_cases harr : obj.isArray = true
    · cases obj <;> try cases harr
      simpa [descend] using h
    · rw [descend_of_not_array (by simpa using harr)] at h ⊢
      cases hget : obj.get key with
      | none => rfl
      | some child =>
        rw [hget] at h
        exact ih h

theorem not_at_of_not_found {keys : List MojString} {obj : MojObject} (h : (findValue keys obj []).2 = false)
    (val : MojObject) : ¬ At keys obj val := by
  obtain ⟨vals, hout, hvals⟩ := findValue_spec keys obj []
  rw [findValue_eq_nil h, List.nil_append] at hout
  rw [← hvals, ← hout]
  exact List.not_mem_nil

/-! ## Texts -/

/-- The clause value's texts have an upper case, and so has the value. -/
def Uppers (icu : Icu) (src subString : MojObject) : Prop :=
  ∀ s, (.string s = src ∨ .string s ∈ leaves subString) → s.isEmpty = false → HasUpper icu s

theorem HasUpper.strToUpper_eq {icu : Icu} {s : MojString} (h : HasUpper icu s) :
    MojDbTextUtils.strToUpper icu s = .ok (upper icu s) := by
  obtain ⟨chars, hchars, hlen⟩ := h
  unfold MojDbTextUtils.strToUpper upper
  rw [hchars]
  exact if_neg (by omega)

theorem strstr_isSome_iff (icu : Icu) (s sub : List UChar) :
    (icu.strstr s sub).isSome = true ↔ ∃ i, True ∧ Icu.OccursAt s sub i := by
  rw [Icu.strstr_isSome]
  refine ⟨fun h => ?_, fun h => ?_⟩
  · obtain ⟨i, -, h⟩ := h
    exact ⟨i, trivial, h⟩
  · obtain ⟨i, -, h⟩ := h
    by_cases hsub : sub = []
    · subst hsub
      exact ⟨0, Nat.zero_le _, List.nil_prefix, by simp, by simp⟩
    · refine ⟨i, ?_, h⟩
      by_contra hlt
      have hnil : s.drop i = [] := List.drop_eq_nil_of_le (by omega)
      have hprefix := h.1
      rw [hnil] at hprefix
      exact hsub (List.prefix_nil.mp hprefix)

/-- What a result says of an alternative. -/
structure Tells (icu : Icu) (src alt : MojObject) (ret : FindSubStringResult) : Prop where
  found : ret.isFound = true ↔ Contains icu src alt
  start : (ret.isFound && ret.pos = some 0 || (ret.srcIsEmpty && ret.subStringIsEmpty)) = true ↔ Begins icu src alt

theorem findOne_spec {icu : Icu} {src alt : MojObject} (harr : alt.isArray = false) (h : Uppers icu src alt) :
    ∃ ret, findOne icu src alt = .ok ret ∧ Tells icu src alt ret := by
  have hnone : (∀ P, ¬ Stands icu P src alt) → Tells icu src alt .none := by
    intro hnot
    exact ⟨⟨fun hf => Bool.noConfusion hf, fun hc => absurd hc (hnot _)⟩,
      ⟨fun hf => Bool.noConfusion hf, fun hc => absurd hc (hnot _)⟩⟩
  cases src with
  | string srcStr =>
    cases alt with
    | string subStringStr =>
      change ∃ ret, (if srcStr.isEmpty || subStringStr.isEmpty then _ else _) = _ ∧ _
      by_cases hsrc : srcStr.isEmpty = true
      · refine ⟨⟨none, srcStr.isEmpty, subStringStr.isEmpty⟩, by rw [hsrc]; rfl, ?_⟩
        constructor <;> simp [FindSubStringResult.isFound, Contains, Begins, Stands, hsrc]
      by_cases hsub : subStringStr.isEmpty = true
      · refine ⟨⟨none, srcStr.isEmpty, subStringStr.isEmpty⟩, by rw [hsub, Bool.or_true]; rfl, ?_⟩
        constructor <;> simp [FindSubStringResult.isFound, Contains, Begins, Stands, hsub]
      rw [Bool.not_eq_true] at hsrc hsub
      have hup := (h srcStr (.inl rfl) hsrc).strToUpper_eq
      have hup' := (h subStringStr (.inr (by simp [leaves])) hsub).strToUpper_eq
      refine ⟨⟨icu.strstr (upper icu srcStr) (upper icu subStringStr), false, false⟩, ?_, ?_⟩
      · rw [hsrc, hsub, Bool.or_false, if_neg Bool.false_ne_true, hup]
        change (match MojDbTextUtils.strToUpper icu subStringStr with | .error err => _ | .ok subStringOut => _) = _
        rw [hup']
      · have hstart : icu.strstr (upper icu srcStr) (upper icu subStringStr) = some 0 ↔
            Icu.OccursAt (upper icu srcStr) (upper icu subStringStr) 0 := Icu.strstr_eq_zero
        constructor
        · simp [FindSubStringResult.isFound, Contains, Stands, hsrc, hsub, strstr_isSome_iff]
        · simp [FindSubStringResult.isFound, Begins, Stands, hsrc, hsub, ← hstart]
          intro hzero
          rw [hzero]
          rfl
    | array vec => cases harr
    | _ => exact ⟨_, rfl, hnone fun P => not_false⟩
  | _ => exact ⟨_, rfl, hnone fun P => by cases alt <;> exact not_false⟩

/-- What a result says of the texts of a clause value: none is found, or it is about the first that is. -/
inductive FirstOf (icu : Icu) (src : MojObject) (alts : List MojObject) (ret : FindSubStringResult) : Prop where
  | missing : ret.isFound = false → (∀ alt ∈ alts, ¬ Contains icu src alt) → FirstOf icu src alts ret
  | found {front back : List MojObject} {alt : MojObject} : alts = front ++ alt :: back →
      (∀ early ∈ front, ¬ Contains icu src early) → Contains icu src alt → Tells icu src alt ret → FirstOf icu src alts ret

theorem FirstOf.isFound_iff {icu : Icu} {src : MojObject} {alts : List MojObject} {ret : FindSubStringResult}
    (h : FirstOf icu src alts ret) : ret.isFound = true ↔ ∃ alt ∈ alts, Contains icu src alt := by
  cases h with
  | missing hnot hall =>
    refine ⟨fun hf => absurd (hnot.symm.trans hf) Bool.false_ne_true, fun hf => ?_⟩
    obtain ⟨alt, hmem, hc⟩ := hf
    exact absurd hc (hall alt hmem)
  | found halts _ hc htells => exact ⟨fun _ => ⟨_, by simp [halts], hc⟩, fun _ => htells.found.mpr hc⟩

/-- A text in front that is not found leaves the first one where it is. -/
theorem FirstOf.append {icu : Icu} {src : MojObject} {alts alts' : List MojObject} {ret : FindSubStringResult}
    (hall : ∀ alt ∈ alts, ¬ Contains icu src alt) (h : FirstOf icu src alts' ret) : FirstOf icu src (alts ++ alts') ret := by
  cases h with
  | missing hnot hall' =>
    refine .missing hnot fun alt hmem => ?_
    cases List.mem_append.mp hmem with
    | inl hmem => exact hall alt hmem
    | inr hmem => exact hall' alt hmem
  | found halts hfront hc htells =>
    refine .found (by rw [halts, List.append_assoc]) (fun early hmem => ?_) hc htells
    cases List.mem_append.mp hmem with
    | inl hmem => exact hall early hmem
    | inr hmem => exact hfront early hmem

theorem Uppers.mono {icu : Icu} {src alt alt' : MojObject} (h : Uppers icu src alt) (hsub : leaves alt' ⊆ leaves alt) :
    Uppers icu src alt' := fun s hs => h s (hs.imp_right fun hmem => hsub hmem)

theorem leaves_subset {alt : MojObject} {vec : List MojObject} (h : alt ∈ vec) : leaves alt ⊆ leaves (.array vec) := by
  change leaves alt ⊆ leavesVec vec
  induction vec with
  | nil => cases h
  | cons val vec ih =>
    rw [leavesVec]
    cases List.mem_cons.mp h with
    | inl he => exact he ▸ List.subset_append_left _ _
    | inr hmem => exact fun a ha => List.subset_append_right _ _ (ih hmem ha)

theorem findFirst_spec {icu : Icu} {src : MojObject} (vec : List MojObject)
    (hfind : ∀ alt ∈ vec, ∃ ret, findSubString icu src alt = .ok ret ∧ FirstOf icu src (leaves alt) ret) :
    ∃ ret, findFirst icu src vec = .ok ret ∧ FirstOf icu src (leavesVec vec) ret := by
  induction vec with
  | nil => exact ⟨.none, rfl, .missing rfl (List.forall_mem_nil _)⟩
  | cons alt vec ih =>
    obtain ⟨ret, hret, hfirst⟩ := hfind alt List.mem_cons_self
    obtain ⟨ret', hret', hfirst'⟩ := ih fun a ha => hfind a (.tail _ ha)
    rw [findFirst, hret, leavesVec]
    cases hf : ret.isFound with
    | true =>
      refine ⟨ret, by simp [hf], ?_⟩
      cases hfirst with
      | missing hnot _ => exact absurd (hnot.symm.trans hf) Bool.false_ne_true
      | found halts hfront hc htells =>
        exact .found (by rw [halts, List.append_assoc, List.cons_append]) hfront hc htells
    | false =>
      refine ⟨ret', by simp [hf, hret'], hfirst'.append fun a ha hc => ?_⟩
      exact absurd (hfirst.isFound_iff.mpr ⟨a, ha, hc⟩) (by simp [hf])

theorem findSubString_spec {icu : Icu} {src : MojObject} (subString : MojObject) (h : Uppers icu src subString) :
    ∃ ret, findSubString icu src subString = .ok ret ∧ FirstOf icu src (leaves subString) ret := by
  have hplain : ∀ alt : MojObject, alt.isArray = false → Uppers icu src alt →
      ∃ ret, findOne icu src alt = .ok ret ∧ FirstOf icu src [alt] ret := by
    intro alt harr halt
    obtain ⟨ret, hret, htells⟩ := findOne_spec harr halt
    refine ⟨ret, hret, ?_⟩
    cases hf : ret.isFound with
    | true => exact .found (List.nil_append _).symm (List.forall_mem_nil _) (htells.found.mp hf) htells
    | false =>
      refine .missing hf fun a ha hc => ?_
      rw [List.mem_singleton.mp ha, ← htells.found, hf] at hc
      cases hc
  induction subString using MojObject.inductionOn with
  | array vec ih => exact findFirst_spec vec fun alt hmem => ih alt hmem (h.mono (leaves_subset hmem))
  | _ => exact hplain _ rfl h

/-! ## The test -/

/-- The texts a clause compares have an upper case. -/
def Readable (icu : Icu) (clause : WhereClause) (val : MojObject) : Prop :=
  clause.lowerOp = .opPrefix ∨ clause.lowerOp = .opSubString → Uppers icu val clause.lowerVal

/-- Before a text the value begins with, the clause lists no text that stands only further in. -/
def Plain (icu : Icu) (clause : WhereClause) (val : MojObject) : Prop :=
  clause.lowerOp = .opPrefix → ∀ front alt back, leaves clause.lowerVal = front ++ alt :: back → Begins icu val alt →
    ∀ early ∈ front, Contains icu val early → Begins icu val early

theorem Begins.contains {icu : Icu} {src sub : MojObject} (h : Begins icu src sub) : Contains icu src sub := by
  cases src <;> cases sub <;> try exact h.elim
  cases h with
  | inl h => exact .inl h
  | inr h =>
    obtain ⟨hsrc, hsub, i, -, hoccurs⟩ := h
    exact .inr ⟨hsrc, hsub, i, trivial, hoccurs⟩

/-- The first text found begins the value, if any does. -/
theorem FirstOf.start_iff {icu : Icu} {src : MojObject} {alts : List MojObject} {ret : FindSubStringResult}
    (h : FirstOf icu src alts ret) (hplain : ∀ front alt back, alts = front ++ alt :: back → Begins icu src alt →
      ∀ early ∈ front, Contains icu src early → Begins icu src early) :
    (ret.isFound && ret.pos = some 0 || (ret.srcIsEmpty && ret.subStringIsEmpty)) = true ↔
      ∃ alt ∈ alts, Begins icu src alt := by
  cases h with
  | missing hnot hall =>
    have hempty : (ret.srcIsEmpty && ret.subStringIsEmpty) = false := (Bool.or_eq_false_iff.mp hnot).2
    rw [hnot, hempty]
    refine ⟨fun hf => Bool.noConfusion hf, fun hf => ?_⟩
    obtain ⟨alt, hmem, hbegins⟩ := hf
    exact absurd hbegins.contains (hall alt hmem)
  | found halts hfront hc htells =>
    rename_i front back alt
    rw [htells.start]
    refine ⟨fun hbegins => ⟨alt, by simp [halts], hbegins⟩, fun hf => ?_⟩
    obtain ⟨alt', hmem, hbegins⟩ := hf
    rw [halts] at hmem
    cases List.mem_append.mp hmem with
    | inl hmem => exact absurd hbegins.contains (hfront alt' hmem)
    | inr hmem =>
      cases List.mem_cons.mp hmem with
      | inl he => exact he ▸ hbegins
      | inr hmem =>
        obtain ⟨middle, rest, rfl⟩ := List.append_of_mem hmem
        have hsplit : alts = (front ++ alt :: middle) ++ alt' :: rest := by rw [halts]; simp
        exact hplain _ _ _ hsplit hbegins alt (by simp) hc

theorem testLower_spec {icu : Icu} {clause : WhereClause} {val : MojObject} (hreadable : Readable icu clause val)
    (hplain : Plain icu clause val) :
    ∃ b, testLower icu clause val = .ok b ∧ (b = true ↔ LowerHolds icu clause val) := by
  unfold testLower LowerHolds
  unfold Readable at hreadable
  unfold Plain at hplain
  cases hop : clause.lowerOp with
  | opEq =>
    cases hval : clause.lowerVal with
    | array vec => exact ⟨_, rfl, by simp [MojObject.alternatives, MojObject.compare_eq_iff]⟩
    | _ => exact ⟨_, rfl, by simp [MojObject.alternatives, MojObject.compare_eq_iff]⟩
  | opSubString =>
    obtain ⟨ret, hret, hfirst⟩ := findSubString_spec clause.lowerVal (hreadable (.inr hop))
    exact ⟨ret.isFound, by rw [hret]; rfl, hfirst.isFound_iff⟩
  | opPrefix =>
    obtain ⟨ret, hret, hfirst⟩ := findSubString_spec clause.lowerVal (hreadable (.inl hop))
    exact ⟨_, by rw [hret]; rfl, hfirst.start_iff (hplain hop)⟩
  | opNotEq => exact ⟨_, rfl, by simp [MojObject.compare_eq_iff]⟩
  | _ => exact ⟨_, rfl, by simp⟩

theorem testUpper_iff (clause : WhereClause) (val : MojObject) : testUpper clause val = true ↔ UpperHolds clause val := by
  unfold testUpper UpperHolds
  cases clause.upperOp <;> simp

theorem testVals_spec {icu : Icu} {clause : WhereClause} {vals : List MojObject}
    (h : ∀ val ∈ vals, Readable icu clause val ∧ Plain icu clause val) :
    ∃ b, testVals icu clause vals = .ok b ∧
      (b = true ↔ ∃ val ∈ vals, LowerHolds icu clause val ∧ UpperHolds clause val) := by
  induction vals with
  | nil => exact ⟨false, rfl, by simp⟩
  | cons val vals ih =>
    obtain ⟨lower, hlower, hiff⟩ := testLower_spec (h val List.mem_cons_self).1 (h val List.mem_cons_self).2
    obtain ⟨rest, hrest, hiff'⟩ := ih fun v hv => h v (.tail _ hv)
    rw [testVals, hlower]
    have hboth : (lower && testUpper clause val) = true ↔ LowerHolds icu clause val ∧ UpperHolds clause val := by
      rw [Bool.and_eq_true, hiff, testUpper_iff]
    by_cases hpass : LowerHolds icu clause val ∧ UpperHolds clause val
    · exact ⟨true, if_pos (hboth.mpr hpass), ⟨fun _ => ⟨val, List.mem_cons_self, hpass⟩, fun _ => rfl⟩⟩
    · refine ⟨rest, (if_neg fun hb => hpass (hboth.mp hb)).trans hrest, ?_⟩
      rw [hiff']
      simp [hpass]

/-- The test returns, and says whether each clause holds: some value at its path passes both parts of the clause. -/
theorem test_spec {icu : Icu} {clauses : WhereMap} {obj : MojObject}
    (hreadable : ∀ p ∈ clauses, ∀ val, At (pathOf p.1) obj val → Readable icu p.2 val)
    (hplain : ∀ p ∈ clauses, ∀ val, At (pathOf p.1) obj val → Plain icu p.2 val) :
    ∃ isFound, test icu clauses obj = .ok isFound ∧ (isFound = true ↔ ∀ p ∈ clauses, Holds icu p.1 p.2 obj) := by
  induction clauses with
  | nil => exact ⟨true, rfl, by simp⟩
  | cons p clauses ih =>
    obtain ⟨key, clause⟩ := p
    obtain ⟨rest, hrest, hiff⟩ := ih (fun q hq => hreadable q (.tail _ hq)) fun q hq => hplain q (.tail _ hq)
    obtain ⟨vals, hout, hvals⟩ := findValue_spec (pathOf key) obj []
    rw [List.nil_append] at hout
    obtain ⟨b, hb, hbiff⟩ := @testVals_spec icu clause vals fun val hmem =>
      ⟨hreadable _ List.mem_cons_self val ((hvals val).mp hmem), hplain _ List.mem_cons_self val ((hvals val).mp hmem)⟩
    have hclause : b = true ↔ Holds icu key clause obj := by
      rw [hbiff, Holds]
      simp only [hvals]
    rw [List.forall_mem_cons]
    cases hfound : (findValue (pathOf key) obj []).2 with
    | false =>
      refine ⟨false, if_neg (fun hf => Bool.false_ne_true (hfound.symm.trans hf)), fun hf => Bool.noConfusion hf, fun hf => ?_⟩
      obtain ⟨val, hat, -⟩ := hf.1
      exact absurd hat (not_at_of_not_found hfound val)
    | true =>
      have htest : test icu ((key, clause) :: clauses) obj = if b then test icu clauses obj else .ok false := by
        refine (if_pos hfound).trans ?_
        change (match testVals icu clause (findValue (pathOf key) obj []).1 with
          | .error err => _ | .ok testResult => _) = _
        rw [hout, hb]
      rw [htest]
      cases hbool : b with
      | false =>
        refine ⟨false, rfl, fun hf => Bool.noConfusion hf, fun hf => ?_⟩
        exact (Bool.false_ne_true (hbool.symm.trans (hclause.mpr hf.1))).elim
      | true => exact ⟨rest, hrest, hiff.trans (and_iff_right (hclause.mp hbool)).symm⟩

/-! ## Not the meaning of a where clause -/

/-- The upper case of plain text. -/
def asciiIcu : Icu where
  strFromUTF8 s := some (s.chars.map fun c => UInt16.ofNat c.toNat)
  strToUpper chars := chars.map fun c => if 97 ≤ c ∧ c ≤ 122 then c - 32 else c
  strstr := Icu.firstIndex
  strstr_first _ _ := rfl

/-- `text`. -/
def textName : MojString := ⟨[116, 101, 120, 116], by decide⟩

theorem opPrefix_ne_opNone : CompOp.opPrefix ≠ .opNone := by decide

/-- `text % "kl"`. -/
def klClause : WhereClause :=
  MojDbQuery.createClause .opPrefix (.string ⟨[107, 108], by decide⟩) none opPrefix_ne_opNone fun _ => .inr (.inl rfl)

def klClauses : WhereMap := [(textName, klClause)]

/-- `{"text":"KLM"}`. -/
def klmObject : MojObject := .object [(textName, .string ⟨[75, 76, 77], by decide⟩)]

theorem at_klm {val : MojObject} (h : At (pathOf textName) klmObject val) : val = .string ⟨[75, 76, 77], by decide⟩ := by
  obtain ⟨vals, hout, hvals⟩ := findValue_spec (pathOf textName) klmObject []
  have hone : (findValue (pathOf textName) klmObject []).1 = [.string ⟨[75, 76, 77], by decide⟩] := by decide
  rw [hone, List.nil_append] at hout
  rw [← hvals, ← hout] at h
  exact List.mem_singleton.mp h

theorem test_spec_klm : ∃ isFound, test asciiIcu klClauses klmObject = .ok isFound ∧
    (isFound = true ↔ ∀ p ∈ klClauses, Holds asciiIcu p.1 p.2 klmObject) := by
  refine test_spec ?_ ?_
  · intro p hp val hval _ s hs hne
    obtain rfl := List.mem_singleton.mp hp
    obtain rfl := at_klm hval
    refine ⟨_, rfl, ?_⟩
    cases hs with
    | inl hs =>
      cases hs
      decide
    | inr hs =>
      cases List.mem_singleton.mp hs
      decide
  · intro p hp val _ _ front alt back hsplit _ early hearly
    obtain rfl := List.mem_singleton.mp hp
    have hlen := congrArg List.length hsplit
    change 1 = _ at hlen
    rw [List.length_append, List.length_cons] at hlen
    obtain rfl : front = [] := List.length_eq_zero_iff.mp (by omega)
    cases hearly

/-- `text % "kl"` finds `KLM`; a where clause does not. -/
theorem test_ignores_case : ¬ ∀ (icu : Icu) (text : MojDbText) (clauses : WhereMap) (obj : MojObject),
    test icu clauses obj = .ok true ↔
      ∀ p ∈ clauses, ∃ val, At (pathOf p.1) obj val ∧ p.2.Matches text val := by
  intro h
  have htrue : test asciiIcu klClauses klmObject = .ok true := by decide
  obtain ⟨val, hat, hlower, -⟩ := (h asciiIcu ⟨fun _ s => s, fun s => [s]⟩ klClauses klmObject).mp htrue _ (.head [])
  obtain rfl := at_klm hat
  obtain ⟨alt, hmem, hprefix⟩ := hlower
  obtain rfl := List.mem_singleton.mp hmem
  have hbytes : ([107, 108] : List MojByte) <+: [75, 76, 77] := hprefix
  revert hbytes
  decide

end MojDbQueryFilter

end Db8
