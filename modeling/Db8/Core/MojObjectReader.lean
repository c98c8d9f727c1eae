import Db8.Core.MojTokenSet
import Db8.Lib.Fallible
import Db8.Lib.Produce

/-!
# Core.MojObjectReader

The reader of serialized values: a machine driven by the marker it reads, with a stack of the
containers it is in.

* `MojDataReader`       — numbers and strings at the front of the bytes.
* `MojObjectReader`     — `next` reads one event; `nextObject` calls it until the stack is empty,
  `read` until the bytes are used up.
* `accept`              — what an event does to the stack, whatever its bytes are.
* `next_spells`         — a spelling of an event the stack accepts is read as that event.
* `nextObject_spells`   — the spellings of a value's events are read back, to the last byte.
-/

namespace Db8

open Lib MojObject MojObjectWriter MojDataWriter

/-! ## Numbers and strings -/

namespace MojDataReader

def readUInt8 : List MojByte → Except MojErr (Nat × List MojByte)
  | p0 :: data => .ok (p0, data)
  | _ => .error .unexpectedEof

def readUInt16 : List MojByte → Except MojErr (Nat × List MojByte)
  | p0 :: p1 :: data => .ok (p1 + p0 * 2 ^ 8, data)
  | _ => .error .unexpectedEof

def readUInt32 : List MojByte → Except MojErr (Nat × List MojByte)
  | p0 :: p1 :: p2 :: p3 :: data => .ok (p3 + p2 * 2 ^ 8 + p1 * 2 ^ 16 + p0 * 2 ^ 24, data)
  | _ => .error .unexpectedEof

/-- The sum is taken modulo `2 ^ 64`. -/
def readInt64 : List MojByte → Except MojErr (Int64 × List MojByte)
  | p0 :: p1 :: p2 :: p3 :: p4 :: p5 :: p6 :: p7 :: data =>
    .ok (Int64.ofNat (p7 + p6 * 2 ^ 8 + p5 * 2 ^ 16 + p4 * 2 ^ 24 + p3 * 2 ^ 32 + p2 * 2 ^ 40 +
      p1 * 2 ^ 48 + p0 * 2 ^ 56), data)
  | _ => .error .unexpectedEof

def readDecimal (data : List MojByte) : Except MojErr (MojDecimal × List MojByte) := do
  let (rep, data) ← readInt64 data
  return (⟨rep⟩, data)

def skip (len : Nat) (data : List MojByte) : Except MojErr (List MojByte) :=
  if data.length < len then .error .unexpectedEof else .ok (data.drop len)

theorem readUInt16_write {n : Nat} (hn : n < 256 ^ 2) (data : List MojByte) :
    readUInt16 (bigEndian 256 2 n ++ data) = .ok (n, data) := by
  simp only [bigEndian, List.cons_append, List.nil_append, readUInt16, Fin.val_ofNat]
  congr 2
  omega

theorem readUInt8_write {n : Nat} (hn : n < 256 ^ 1) (data : List MojByte) :
    readUInt8 (bigEndian 256 1 n ++ data) = .ok (n, data) := by
  simp only [bigEndian, List.cons_append, List.nil_append, readUInt8, Fin.val_ofNat]
  congr 2
  omega

theorem readUInt32_write {n : Nat} (hn : n < 256 ^ 4) (data : List MojByte) :
    readUInt32 (bigEndian 256 4 n ++ data) = .ok (n, data) := by
  simp only [bigEndian, List.cons_append, List.nil_append, readUInt32, Fin.val_ofNat]
  congr 2
  omega

theorem readInt64_write {n : Nat} (hn : n < 256 ^ 8) (data : List MojByte) :
    readInt64 (bigEndian 256 8 n ++ data) = .ok (Int64.ofNat n, data) := by
  simp only [bigEndian, List.cons_append, List.nil_append, readInt64, Fin.val_ofNat]
  congr 3
  omega

end MojDataReader

open MojDataReader

namespace MojObjectReader

def readInt (marker : MojByte) (data : List MojByte) : Except MojErr (Int64 × List MojByte) :=
  if marker = MarkerZeroIntValue then .ok (0, data)
  else if marker = MarkerUInt8Value then do
    let (val, data) ← readUInt8 data
    return (Int64.ofNat val, data)
  else if marker = MarkerUInt16Value then do
    let (val, data) ← readUInt16 data
    return (Int64.ofNat val, data)
  else if marker = MarkerUInt32Value then do
    let (val, data) ← readUInt32 data
    return (Int64.ofNat val, data)
  else if marker = MarkerNegativeIntValue ∨ marker = MarkerInt64Value then readInt64 data
  else .error .objectReaderUnexpectedMarker

theorem takeWhile_nul_free (data : List MojByte) : 0 ∉ data.takeWhile (· ≠ 0) := by
  intro h
  have := List.mem_takeWhile_imp h
  simp at this

/-- The bytes before the first zero byte, which is skipped. -/
def readString (data : List MojByte) : Except MojErr (MojString × List MojByte) :=
  if 0 ∈ data then
    .ok (⟨data.takeWhile (· ≠ 0), takeWhile_nul_free data⟩, (data.dropWhile (· ≠ 0)).drop 1)
  else .error .unexpectedEof

/-- A marker of `intValue` is followed by as many bytes as `intWidth` says. -/
theorem readInt_bigEndian {marker : MojByte} (hlo : 9 ≤ marker) (hhi : marker ≤ 14) {n : Nat}
    (hn : n < 256 ^ intWidth marker) (data : List MojByte) :
    readInt marker (bigEndian 256 (intWidth marker) n ++ data) = .ok (Int64.ofNat n, data) := by
  have hmarker : marker = 9 ∨ marker = 10 ∨ marker = 11 ∨ marker = 12 ∨ marker = 13 ∨ marker = 14 := by
    rw [Fin.le_def] at hlo hhi
    simp only [Fin.ext_iff]
    change 9 ≤ marker.val at hlo
    change marker.val ≤ 14 at hhi
    change marker.val = 9 ∨ marker.val = 10 ∨ marker.val = 11 ∨ marker.val = 12 ∨ marker.val = 13 ∨
      marker.val = 14
    omega
  rcases hmarker with rfl | rfl | rfl | rfl | rfl | rfl
  · exact readInt64_write hn data
  · have hzero : n = 0 := Nat.lt_one_iff.mp hn
    subst hzero
    rfl
  · change (readUInt8 (bigEndian 256 1 n ++ data) >>= _) = _
    rw [readUInt8_write hn]
    rfl
  · change (readUInt16 (bigEndian 256 2 n ++ data) >>= _) = _
    rw [readUInt16_write hn]
    rfl
  · change (readUInt32 (bigEndian 256 4 n ++ data) >>= _) = _
    rw [readUInt32_write hn]
    rfl
  · exact readInt64_write hn data

theorem readInt_write (val : Int64) (data : List MojByte) :
    readInt (intMarker val) (bigEndian 256 (intWidth (intMarker val)) val.toUInt64.toNat ++ data) =
      .ok (val, data) := by
  have hval : Int64.ofNat val.toUInt64.toNat = val := by simp [Int64.ofNat]
  rw [readInt_bigEndian (intMarker_bounds val).1 (intMarker_bounds val).2 (toNat_lt_intWidth val), hval]

theorem readDecimal_write (val : MojDecimal) (data : List MojByte) :
    readDecimal (writeDecimal val ++ data) = .ok (val, data) := by
  have hlt := val.rep.toUInt64.toNat_lt
  have hval : Int64.ofNat val.rep.toUInt64.toNat = val.rep := by simp [Int64.ofNat]
  rw [readDecimal, writeDecimal, writeInt64, readInt64_write (by omega), hval]
  rfl

theorem readString_write (str : MojString) (data : List MojByte) :
    readString (str.chars ++ 0 :: data) = .ok (str, data) := by
  have hne : ∀ c ∈ str.chars, (decide (c ≠ 0)) = true := by
    intro c hc
    refine decide_eq_true ?_
    rintro rfl
    exact str.nul_free hc
  have htake : (str.chars ++ 0 :: data).takeWhile (· ≠ 0) = str.chars := by
    rw [List.takeWhile_append_of_pos hne]
    simp
  have hdrop : (str.chars ++ 0 :: data).dropWhile (· ≠ 0) = 0 :: data := by
    rw [List.dropWhile_append_of_pos hne]
    simp
  simp only [readString, htake, hdrop, List.mem_append, List.mem_cons, true_or, or_true, if_true]
  rfl

end MojObjectReader

/-! ## The machine -/

inductive MojObjectReaderState where
  | stateValue
  | stateObject
  | stateArray
  deriving DecidableEq

/-- `data` is what lies between `m_pos` and `m_end`; of the token set only the vector is read. -/
structure MojObjectReader where
  data : List MojByte
  stack : List MojObjectReaderState
  skipBeginObj : Bool
  tokenVec : Option (List MojString)

namespace MojObjectReader

def hasNext (r : MojObjectReader) : Bool := !r.data.isEmpty

/-- The value a marker announces. `r` has read the marker and left `StateValue`; an extension is
skipped without an event. -/
def nextValue (r : MojObjectReader) (marker : MojByte) :
    Except MojErr (List Visit × MojObjectReader) :=
  if marker = MarkerObjectBegin then
    .ok (if r.skipBeginObj then [] else [.beginObject],
      { r with stack := .stateObject :: r.stack, skipBeginObj := false })
  else if marker = MarkerArrayBegin then
    .ok ([.beginArray], { r with stack := .stateArray :: r.stack })
  else if marker = MarkerStringValue then do
    let (str, data) ← readString r.data
    return ([.stringValue str], { r with data := data })
  else if marker = MarkerNullValue then .ok ([.nullValue], r)
  else if marker = MarkerTrueValue then .ok ([.boolValue true], r)
  else if marker = MarkerFalseValue then .ok ([.boolValue false], r)
  else if marker = MarkerNegativeDecimalValue ∨ marker = MarkerPositiveDecimalValue then do
    let (val, data) ← readDecimal r.data
    return ([.decimalValue val], { r with data := data })
  else if 9 ≤ marker ∧ marker ≤ 14 then do
    let (val, data) ← readInt marker r.data
    return ([.intValue val], { r with data := data })
  else if marker = MarkerExtensionValue then do
    let (extSize, data) ← readUInt32 r.data
    let data ← skip extSize data
    return ([], { r with data := data })
  else match r.tokenVec with
    | none => .error .objectReaderUnexpectedMarker
    | some vec => do
      let val ← MojTokenSet.stringFromToken vec marker
      return ([.stringValue val], r)

/-- The end of an object or the name of its next property. -/
def nextProp (r : MojObjectReader) (stack : List MojObjectReaderState) (marker : MojByte) :
    Except MojErr (List Visit × MojObjectReader) :=
  if marker = MarkerObjectEnd then .ok ([.endObject], { r with stack := stack })
  else if marker = MarkerStringValue then do
    let (str, data) ← readString r.data
    return ([.propName str], { r with data := data, stack := .stateValue :: r.stack })
  else match r.tokenVec with
    | none => .error .objectReaderUnexpectedMarker
    | some vec => do
      let name ← MojTokenSet.stringFromToken vec marker
      return ([.propName name], { r with stack := .stateValue :: r.stack })

def next (r : MojObjectReader) : Except MojErr (List Visit × MojObjectReader) :=
  match r.data with
  | [] => .error .unexpectedEof
  | marker :: data =>
    match r.stack with
    | [] => nextValue { r with data := data } marker
    | .stateValue :: stack => nextValue { r with data := data, stack := stack } marker
    | .stateObject :: stack => nextProp { r with data := data } stack marker
    | .stateArray :: stack =>
      if marker = MarkerObjectEnd then .ok ([.endArray], { r with data := data, stack := stack })
      -- `goto Redo` with `StateValue` on the stack
      else nextValue { r with data := data } marker

/-! ### Every call reads on -/

def ReadsOn {α : Type} (read : List MojByte → Except MojErr (α × List MojByte)) : Prop :=
  ∀ data val rest, read data = .ok (val, rest) → rest.length ≤ data.length

theorem readUInt8_readsOn : ReadsOn readUInt8 := by
  intro data val rest h
  unfold readUInt8 at h
  split at h
  · cases h
    simp
  · cases h

theorem readUInt16_readsOn : ReadsOn readUInt16 := by
  intro data val rest h
  unfold readUInt16 at h
  split at h
  · cases h
    simp only [List.length_cons]
    omega
  · cases h

theorem readUInt32_readsOn : ReadsOn readUInt32 := by
  intro data val rest h
  unfold readUInt32 at h
  split at h
  · cases h
    simp only [List.length_cons]
    omega
  · cases h

theorem readInt64_readsOn : ReadsOn readInt64 := by
  intro data val rest h
  unfold readInt64 at h
  split at h
  · cases h
    simp only [List.length_cons]
    omega
  · cases h

theorem readDecimal_readsOn : ReadsOn readDecimal := by
  intro data val rest h
  obtain ⟨⟨rep, data'⟩, hrep, h⟩ := bind_eq_ok.mp h
  cases h
  exact readInt64_readsOn _ _ _ hrep

theorem readInt_readsOn (marker : MojByte) : ReadsOn (readInt marker) := by
  intro data val rest h
  unfold readInt at h
  split_ifs at h
  · cases h
    exact le_refl _
  · obtain ⟨⟨val, data'⟩, hval, h⟩ := bind_eq_ok.mp h
    cases h
    exact readUInt8_readsOn _ _ _ hval
  · obtain ⟨⟨val, data'⟩, hval, h⟩ := bind_eq_ok.mp h
    cases h
    exact readUInt16_readsOn _ _ _ hval
  · obtain ⟨⟨val, data'⟩, hval, h⟩ := bind_eq_ok.mp h
    cases h
    exact readUInt32_readsOn _ _ _ hval
  · exact readInt64_readsOn _ _ _ h

theorem readString_readsOn : ReadsOn readString := by
  intro data val rest h
  unfold readString at h
  split_ifs at h
  cases h
  have := (List.dropWhile_suffix (l := data) (p := (· ≠ 0))).length_le
  rw [List.length_drop]
  omega

theorem nextValue_length {r r' : MojObjectReader} {marker : MojByte} {evs : List Visit}
    (h : r.nextValue marker = .ok (evs, r')) : r'.data.length ≤ r.data.length := by
  unfold nextValue at h
  split_ifs at h
  all_goals try (cases h; exact le_refl _)
  · obtain ⟨⟨str, data⟩, hstr, h⟩ := bind_eq_ok.mp h
    cases h
    exact readString_readsOn _ _ _ hstr
  · obtain ⟨⟨val, data⟩, hval, h⟩ := bind_eq_ok.mp h
    cases h
    exact readDecimal_readsOn _ _ _ hval
  · obtain ⟨⟨val, data⟩, hval, h⟩ := bind_eq_ok.mp h
    cases h
    exact readInt_readsOn _ _ _ _ hval
  · obtain ⟨⟨extSize, data⟩, hsize, h⟩ := bind_eq_ok.mp h
    obtain ⟨data', hskip, h⟩ := bind_eq_ok.mp h
    cases h
    have := readUInt32_readsOn _ _ _ hsize
    unfold skip at hskip
    split_ifs at hskip
    cases hskip
    simp only [List.length_drop]
    omega
  · split at h
    · cases h
    · obtain ⟨val, -, h⟩ := bind_eq_ok.mp h
      cases h
      exact le_refl _

theorem nextProp_length {r r' : MojObjectReader} {stack : List MojObjectReaderState} {marker : MojByte}
    {evs : List Visit} (h : r.nextProp stack marker = .ok (evs, r')) :
    r'.data.length ≤ r.data.length := by
  unfold nextProp at h
  split_ifs at h
  · cases h
    exact le_refl _
  · obtain ⟨⟨str, data⟩, hstr, h⟩ := bind_eq_ok.mp h
    cases h
    exact readString_readsOn _ _ _ hstr
  · split at h
    · cases h
    · obtain ⟨val, -, h⟩ := bind_eq_ok.mp h
      cases h
      exact le_refl _

theorem next_length {r r' : MojObjectReader} {evs : List Visit} (h : r.next = .ok (evs, r')) :
    r'.data.length < r.data.length := by
  unfold next at h
  split at h
  · cases h
  · rename_i marker data hdata
    rw [hdata, List.length_cons, Nat.lt_succ_iff]
    split at h
    · exact nextValue_length h
    · exact nextValue_length h
    · exact nextProp_length h
    · split_ifs at h
      · cases h
        exact le_refl _
      · exact nextValue_length h

/-- `do next while the stack is not empty`. -/
def nextObject (r : MojObjectReader) : Except MojErr (List Visit × MojObjectReader) :=
  match _h : r.next with
  | .error e => .error e
  | .ok (evs, r') =>
    if r'.stack = [] then .ok (evs, r')
    else do
      let (rest, r'') ← nextObject r'
      return (evs ++ rest, r'')
  termination_by r.data.length
  decreasing_by exact next_length _h

/-- `while there are bytes, next`. -/
def read (r : MojObjectReader) : Except MojErr (List Visit × MojObjectReader) :=
  if r.hasNext then
    match _h : r.next with
    | .error e => .error e
    | .ok (evs, r') => do
      let (rest, r'') ← read r'
      return (evs ++ rest, r'')
  else .ok ([], r)
  termination_by r.data.length
  decreasing_by exact next_length _h

theorem nextObject_of_produces {r r' : MojObjectReader} {evs : List Visit}
    (h : Produces next (fun r => r.stack ≠ []) r evs r') (hr' : r'.stack = []) :
    r.nextObject = .ok (evs, r') := by
  induction h with
  | last h =>
    rw [nextObject]
    split
    · rename_i e he
      rw [h] at he
      cases he
    · rename_i evs' t ht
      rw [h] at ht
      cases ht
      rw [if_pos hr']
  | step h hm _ ih =>
    rw [nextObject]
    split
    · rename_i e he
      rw [h] at he
      cases he
    · rename_i evs' t ht
      rw [h] at ht
      cases ht
      rw [if_neg hm, ih hr']
      rfl

theorem read_of_produces {r r' : MojObjectReader} {evs : List Visit}
    (h : Produces next (fun _ => True) r evs r') (hr' : r'.data = []) : r.read = .ok (evs, r') := by
  have hread : ∀ {r r' : MojObjectReader} {evs rest : List Visit} {r'' : MojObjectReader},
      r.next = .ok (evs, r') → r'.read = .ok (rest, r'') → r.read = .ok (evs ++ rest, r'') := by
    intro r r' evs rest r'' hnext hrest
    have hlt := next_length hnext
    have hmore : r.hasNext = true := by
      cases hdata : r.data with
      | nil => simp [hdata] at hlt
      | cons b data => simp [hasNext, hdata]
    rw [read, if_pos hmore]
    split
    · rename_i e he
      rw [hnext] at he
      cases he
    · rename_i evs' t ht
      rw [hnext] at ht
      cases ht
      rw [hrest]
      rfl
  induction h with
  | @last s s' out h =>
    have hend : s'.read = .ok ([], s') := by rw [read, if_neg (by simp [hasNext, hr'])]
    simpa using hread h hend
  | step h _ _ ih => exact hread h (ih hr')

/-! ### What an event does to the stack -/

/-- Where a value is read: a pending `StateValue` is done with, an array goes on. -/
def enter : List MojObjectReaderState → Option (List MojObjectReaderState)
  | [] => some []
  | .stateValue :: stack => some stack
  | .stateArray :: stack => some (.stateArray :: stack)
  | .stateObject :: _ => none

def accept (stack : List MojObjectReaderState) : Visit → Option (List MojObjectReaderState)
  | .beginObject => (enter stack).map (.stateObject :: ·)
  | .beginArray => (enter stack).map (.stateArray :: ·)
  | .endObject =>
    match stack with
    | .stateObject :: stack => some stack
    | _ => none
  | .endArray =>
    match stack with
    | .stateArray :: stack => some stack
    | _ => none
  | .propName _ =>
    match stack with
    | .stateObject :: stack => some (.stateValue :: .stateObject :: stack)
    | _ => none
  | _ => enter stack

/-- The events lead from one stack to another and keep it above the height `n` on the way. -/
inductive Walks (n : Nat) :
    List MojObjectReaderState → List Visit → List MojObjectReaderState → Prop
  | last {stack stack' : List MojObjectReaderState} {v : Visit} (h : accept stack v = some stack') :
      Walks n stack [v] stack'
  | step {stack t stack' : List MojObjectReaderState} {v : Visit} {vs : List Visit}
      (h : accept stack v = some t) (hn : n < t.length) (hr : Walks n t vs stack') :
      Walks n stack (v :: vs) stack'

theorem Walks.trans {n : Nat} {a b c : List MojObjectReaderState} {vs ws : List Visit}
    (h : Walks n a vs b) (hb : n < b.length) (hr : Walks n b ws c) : Walks n a (vs ++ ws) c := by
  induction h with
  | last h => exact .step h hb hr
  | step h hn _ ih => exact .step h hn (ih hb hr)

theorem Walks.mono {m n : Nat} (hmn : m ≤ n) {a b : List MojObjectReaderState} {vs : List Visit}
    (h : Walks n a vs b) : Walks m a vs b := by
  induction h with
  | last h => exact .last h
  | step h hn _ ih => exact .step h (hmn.trans_lt hn) ih

/-- The events of `o` are accepted wherever a value is, and leave the stack below as it is. -/
def ReadsAsValue (o : MojObject) : Prop :=
  ∀ stack stack', enter stack = some stack' → Walks stack'.length stack o.visit stack'

theorem walks_visitProps {ps : List (MojString × MojObject)} (hps : ∀ p ∈ ps, ReadsAsValue p.2)
    (stack : List MojObjectReaderState) :
    Walks stack.length (.stateObject :: stack) (visitProps ps ++ [.endObject]) stack := by
  induction ps with
  | nil => exact .last rfl
  | cons p ps ih =>
    have hval := hps p List.mem_cons_self (.stateValue :: .stateObject :: stack) _ rfl
    have hrest := ih fun q hq => hps q (List.mem_cons_of_mem _ hq)
    have hboth := (hval.mono (Nat.le_succ _)).trans (by simp) hrest
    rw [visitProps, List.cons_append, List.append_assoc]
    exact .step rfl (by simp only [List.length_cons]; omega) hboth

theorem walks_visitVec {xs : List MojObject} (hxs : ∀ x ∈ xs, ReadsAsValue x)
    (stack : List MojObjectReaderState) :
    Walks stack.length (.stateArray :: stack) (visitVec xs ++ [.endArray]) stack := by
  induction xs with
  | nil => exact .last rfl
  | cons x xs ih =>
    have hval := hxs x List.mem_cons_self (.stateArray :: stack) _ rfl
    have hrest := ih fun y hy => hxs y (List.mem_cons_of_mem _ hy)
    rw [visitVec, List.append_assoc]
    exact (hval.mono (Nat.le_succ _)).trans (by simp) hrest

theorem readsAsValue (o : MojObject) : ReadsAsValue o := by
  induction o using inductionOn with
  | object ps ih =>
    intro stack stack' h
    have hbegin : accept stack .beginObject = some (.stateObject :: stack') := by simp [accept, h]
    exact .step hbegin (by simp) (walks_visitProps ih stack')
  | array xs ih =>
    intro stack stack' h
    have hbegin : accept stack .beginArray = some (.stateArray :: stack') := by simp [accept, h]
    exact .step hbegin (by simp) (walks_visitVec ih stack')
  | _ =>
    intro stack stack' h
    exact .last h

/-! ### Reading spellings -/

theorem next_of_enter {stack t : List MojObjectReaderState} (h : enter stack = some t)
    {marker : MojByte} (hm : marker ≠ MarkerObjectEnd) (data : List MojByte) (skipBeginObj : Bool)
    (names : Option (List MojString)) :
    next ⟨marker :: data, stack, skipBeginObj, names⟩ =
      nextValue ⟨data, t, skipBeginObj, names⟩ marker := by
  cases stack with
  | nil =>
    cases h
    rfl
  | cons top stack =>
    cases top with
    | stateValue =>
      cases h
      rfl
    | stateObject => cases h
    | stateArray =>
      cases h
      simp only [next, if_neg hm]

theorem tokenMarker_val {i : Nat} (hi : i < 223) : (MojTokenSet.tokenMarker i).val = 32 + i := by
  simp only [MojTokenSet.tokenMarker, TokenStartMarker, Fin.val_ofNat]
  omega

theorem stringFromToken_tokenMarker {vec : List MojString} {i : Nat} {str : MojString} (hi : i < 223)
    (hget : vec[i]? = some str) :
    MojTokenSet.stringFromToken vec (MojTokenSet.tokenMarker i) = .ok str := by
  rw [MojTokenSet.stringFromToken, tokenMarker_val hi, if_neg (by simp [TokenStartMarker])]
  simp [TokenStartMarker, hget]

/-- A token is above all markers. -/
theorem tokenMarker_ne {i : Nat} (hi : i < 223) {marker : MojByte} (hm : marker.val < 32) :
    MojTokenSet.tokenMarker i ≠ marker := by
  intro h
  have := tokenMarker_val hi
  rw [h] at this
  omega

theorem nextValue_token {vec : List MojString} {i : Nat} {str : MojString} (hi : i < 223)
    (hget : vec[i]? = some str) (data : List MojByte) (stack : List MojObjectReaderState) :
    nextValue ⟨data, stack, false, some vec⟩ (MojTokenSet.tokenMarker i) =
      .ok ([.stringValue str], ⟨data, stack, false, some vec⟩) := by
  have hne : ∀ {marker : MojByte}, marker.val < 32 → ¬ MojTokenSet.tokenMarker i = marker :=
    fun hm => tokenMarker_ne hi hm
  have hint : ¬ (9 ≤ MojTokenSet.tokenMarker i ∧ MojTokenSet.tokenMarker i ≤ 14) := by
    intro h
    have hle : (MojTokenSet.tokenMarker i).val ≤ 14 := h.2
    rw [tokenMarker_val hi] at hle
    omega
  rw [nextValue, if_neg (hne (by decide)), if_neg (hne (by decide)), if_neg (hne (by decide)),
    if_neg (hne (by decide)), if_neg (hne (by decide)), if_neg (hne (by decide)),
    if_neg (not_or.mpr ⟨hne (by decide), hne (by decide)⟩), if_neg hint, if_neg (hne (by decide))]
  simp only [stringFromToken_tokenMarker hi hget]
  rfl

theorem nextProp_token {vec : List MojString} {i : Nat} {str : MojString} (hi : i < 223)
    (hget : vec[i]? = some str) (data : List MojByte) (top stack : List MojObjectReaderState) :
    nextProp ⟨data, top, false, some vec⟩ stack (MojTokenSet.tokenMarker i) =
      .ok ([.propName str], ⟨data, .stateValue :: top, false, some vec⟩) := by
  rw [nextProp, if_neg (tokenMarker_ne hi (by decide)), if_neg (tokenMarker_ne hi (by decide))]
  simp only [stringFromToken_tokenMarker hi hget]
  rfl

theorem nextValue_int {marker : MojByte} (hlo : 9 ≤ marker) (hhi : marker ≤ 14) (r : MojObjectReader) :
    nextValue r marker = (do
      let (val, data) ← readInt marker r.data
      return ([.intValue val], { r with data := data })) := by
  have hne : ∀ {m : MojByte}, m < 9 → ¬ marker = m := fun hm h => absurd hm (not_lt.mpr (h ▸ hlo))
  rw [nextValue, if_neg (hne (by decide)), if_neg (hne (by decide)), if_neg (hne (by decide)),
    if_neg (hne (by decide)), if_neg (hne (by decide)), if_neg (hne (by decide)),
    if_neg (not_or.mpr ⟨hne (by decide), hne (by decide)⟩), if_pos ⟨hlo, hhi⟩]

theorem nextValue_decimal (val : MojDecimal) (r : MojObjectReader) :
    nextValue r (if val.rep < 0 then MarkerNegativeDecimalValue else MarkerPositiveDecimalValue) = (do
      let (val, data) ← readDecimal r.data
      return ([.decimalValue val], { r with data := data })) := by
  split_ifs <;> rfl

/-- A spelling of an event that the stack accepts is read as that event, up to its last byte. -/
theorem next_spells {names : Option (List MojString)} {v : Visit} {bs : List MojByte}
    (hs : Spells names v bs) {stack stack' : List MojObjectReaderState}
    (ha : accept stack v = some stack') (rest : List MojByte) :
    next ⟨bs ++ rest, stack, false, names⟩ = .ok ([v], ⟨rest, stack', false, names⟩) := by
  cases v with
  | beginObject =>
    cases hs
    obtain ⟨t, ht, rfl⟩ := Option.map_eq_some_iff.mp ha
    exact next_of_enter ht (by decide) rest false names
  | endObject =>
    cases hs
    match stack, ha with
    | .stateObject :: stack, ha =>
      cases ha
      rfl
  | beginArray =>
    cases hs
    obtain ⟨t, ht, rfl⟩ := Option.map_eq_some_iff.mp ha
    exact next_of_enter ht (by decide) rest false names
  | endArray =>
    cases hs
    match stack, ha with
    | .stateArray :: stack, ha =>
      cases ha
      rfl
  | propName name =>
    match stack, ha with
    | .stateObject :: stack, ha =>
      cases ha
      cases hs with
      | inl hs =>
        subst hs
        change nextProp ⟨(name.chars ++ [0]) ++ rest, _, false, names⟩ stack MarkerStringValue = _
        rw [List.append_assoc, List.singleton_append]
        change (readString (name.chars ++ 0 :: rest) >>= _) = _
        rw [readString_write]
        rfl
      | inr hs =>
        obtain ⟨vec, i, rfl, hi, hget, rfl⟩ := hs
        exact nextProp_token hi hget rest _ stack
  | nullValue =>
    cases hs
    exact next_of_enter ha (by decide) rest false names
  | boolValue val =>
    cases hs
    cases val
    · exact next_of_enter ha (by decide) rest false names
    · exact next_of_enter ha (by decide) rest false names
  | intValue val =>
    cases hs
    have hlo := (intMarker_bounds val).1
    have hhi := (intMarker_bounds val).2
    rw [write, intValue_eq, List.cons_append, next_of_enter ha (ne_of_gt (hlo.trans_lt' (by decide))),
      nextValue_int hlo hhi]
    simp only [readInt_write, ok_bind]
    rfl
  | decimalValue val =>
    cases hs
    have hne : (if val.rep < 0 then MarkerNegativeDecimalValue else MarkerPositiveDecimalValue) ≠
        MarkerObjectEnd := by split_ifs <;> decide
    rw [write, MojObjectWriter.decimalValue, List.cons_append, next_of_enter ha hne, nextValue_decimal]
    simp only [readDecimal_write, ok_bind]
    rfl
  | stringValue val =>
    cases hs with
    | inl hs =>
      subst hs
      rw [writeString, List.cons_append, next_of_enter ha (by decide), writeChars, List.append_assoc,
        List.singleton_append]
      change (readString (val.chars ++ 0 :: rest) >>= _) = _
      rw [readString_write]
      rfl
    | inr hs =>
      obtain ⟨vec, i, rfl, hi, hget, rfl⟩ := hs
      rw [List.singleton_append, next_of_enter ha (tokenMarker_ne hi (by decide))]
      exact nextValue_token hi hget rest stack'

/-- The spellings of accepted events are read call by call. -/
theorem produces_of_spells {names : Option (List MojString)} {vs : List Visit}
    {bss : List (List MojByte)} (hs : List.Forall₂ (Spells names) vs bss) {n : Nat}
    {stack stack' : List MojObjectReaderState} (hw : Walks n stack vs stack') (rest : List MojByte) :
    Produces next (fun r => n < r.stack.length) ⟨bss.flatten ++ rest, stack, false, names⟩ vs
      ⟨rest, stack', false, names⟩ := by
  induction hw generalizing bss with
  | last ha =>
    cases hs with
    | cons hv hnil =>
      cases hnil
      rw [List.flatten_singleton]
      exact .last (next_spells hv ha rest)
  | step ha hn _ ih =>
    cases hs with
    | cons hv hvs =>
      rw [List.flatten_cons, List.append_assoc]
      exact .step (next_spells hv ha _) hn (ih hvs)

/-- A reader at the front of the bytes, as the constructor makes it. -/
def ofBytes (data : List MojByte) (names : Option (List MojString)) : MojObjectReader :=
  ⟨data, [], false, names⟩

theorem nextObject_of_walks {names : Option (List MojString)} {vs : List Visit}
    {bss : List (List MojByte)} (hs : List.Forall₂ (Spells names) vs bss) (hw : Walks 0 [] vs [])
    (rest : List MojByte) :
    (ofBytes (bss.flatten ++ rest) names).nextObject = .ok (vs, ofBytes rest names) := by
  have h := produces_of_spells hs hw rest
  exact nextObject_of_produces (h.mono fun r hr => List.length_pos_iff.mp hr) rfl

/-- **What spells the events of a value is read as these events**, whatever follows it. -/
theorem nextObject_spells {names : Option (List MojString)} {o : MojObject}
    {bss : List (List MojByte)} (hs : List.Forall₂ (Spells names) o.visit bss) (rest : List MojByte) :
    (ofBytes (bss.flatten ++ rest) names).nextObject = .ok (o.visit, ofBytes rest names) :=
  nextObject_of_walks hs (readsAsValue o [] [] rfl) rest

theorem read_spells {names : Option (List MojString)} {o : MojObject}
    {bss : List (List MojByte)} (hs : List.Forall₂ (Spells names) o.visit bss) :
    (ofBytes bss.flatten names).read = .ok (o.visit, ofBytes [] names) := by
  have h := produces_of_spells hs (readsAsValue o [] [] rfl) []
  rw [List.append_nil] at h
  exact read_of_produces (h.mono fun _ _ => trivial) rfl

end MojObjectReader

end Db8
