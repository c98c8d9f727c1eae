import Db8.Core.MojNumber
import Db8.Lib.Ensures

/-!
# Core.MojJsonParser

The JSON parser: a machine that takes one character at a time and keeps all it knows between two
characters in its members, so that a text can be handed over in pieces.

* `MojJsonParser`       — the members; a record of two states for each nesting depth.
* `redo`                — what one character does. The `goto Redo` of the source are calls.
* `parseChunk`          — the characters of a piece, up to the end of the value.
* `parseChunks_flatten` — however a text is cut, the visitor sees the same calls and the outcome is
  the same.
-/

namespace Db8

open Lib

/-- The calls of a visitor of JSON text; its strings may hold any bytes. -/
inductive JsonVisit where
  | beginObject | endObject | beginArray | endArray
  | propName (name : List MojByte)
  | nullValue
  | boolValue (val : Bool)
  | intValue (val : Int64)
  | decimalValue (val : MojDecimal)
  | stringValue (val : List MojByte)
  deriving DecidableEq

inductive MojJsonState where
  | stateEatWhitespace
  | stateStart
  | stateFinish
  | stateNull
  | stateCommentStart
  | stateComment
  | stateCommentEol
  | stateCommentEnd
  | stateString
  | stateStringEscape
  | stateEscapeUnicode
  | stateBool
  | stateNumber
  | stateArray
  | stateArraySep
  | stateObjFieldStart
  | stateObjField
  | stateObjFieldEnd
  | stateObjValue
  | stateObjSep
  deriving DecidableEq

/-- `StackRec`. White space is never what is gone back to. -/
structure MojJsonStackRec where
  state : MojJsonState
  savedState : MojJsonState
  saved_ne : savedState ≠ .stateEatWhitespace

/-- The members; `top` is `m_stack[m_depth]` and `below` the records under it, the nearest first.
`matchTrue` says which of the two texts `m_matchStr` points to. -/
structure MojJsonParser where
  line : Nat
  col : Nat
  strPos : Nat
  ucsChar : Nat
  matchTrue : Bool
  isDecimal : Bool
  str : List MojByte
  top : MojJsonStackRec
  below : List MojJsonStackRec

/-- What a character did: it was taken, or it stands behind the value (`goto Done`). -/
inductive MojJsonParser.Outcome where
  | consumed (p : MojJsonParser)
  | done (p : MojJsonParser)

namespace MojJsonParser

def quote : MojByte := 34
def backslash : MojByte := 92
def newline : MojByte := 10

def MojJsonNullString : List MojByte := [ch 'n', ch 'u', ch 'l', ch 'l']
def MojJsonTrueString : List MojByte := [ch 't', ch 'r', ch 'u', ch 'e']
def MojJsonFalseString : List MojByte := [ch 'f', ch 'a', ch 'l', ch 's', ch 'e']

def MaxDepth : Nat := 32

theorem start_ne : MojJsonState.stateStart ≠ .stateEatWhitespace := by decide
theorem finish_ne : MojJsonState.stateFinish ≠ .stateEatWhitespace := by decide
theorem string_ne : MojJsonState.stateString ≠ .stateEatWhitespace := by decide
theorem array_ne : MojJsonState.stateArray ≠ .stateEatWhitespace := by decide
theorem objFieldStart_ne : MojJsonState.stateObjFieldStart ≠ .stateEatWhitespace := by decide
theorem objField_ne : MojJsonState.stateObjField ≠ .stateEatWhitespace := by decide
theorem objFieldEnd_ne : MojJsonState.stateObjFieldEnd ≠ .stateEatWhitespace := by decide
theorem objValue_ne : MojJsonState.stateObjValue ≠ .stateEatWhitespace := by decide
theorem objSep_ne : MojJsonState.stateObjSep ≠ .stateEatWhitespace := by decide

/-- `resetRec`. -/
def startRec : MojJsonStackRec := ⟨.stateEatWhitespace, .stateStart, start_ne⟩

/-- `state() = s`. -/
def goto (p : MojJsonParser) (s : MojJsonState) : MojJsonParser := { p with top := { p.top with state := s } }

/-- `savedState() = saved; state() = s`. -/
def goSaving (p : MojJsonParser) (s saved : MojJsonState) (h : saved ≠ .stateEatWhitespace) :
    MojJsonParser := { p with top := ⟨s, saved, h⟩ }

/-- White space, then `saved`. -/
def eatThen (p : MojJsonParser) (saved : MojJsonState) (h : saved ≠ .stateEatWhitespace) : MojJsonParser :=
  p.goSaving .stateEatWhitespace saved h

def depth (p : MojJsonParser) : Nat := p.below.length

/-- `push`, without its test of the depth. -/
def pushed (p : MojJsonParser) : MojJsonParser := { p with top := startRec, below := p.top :: p.below }

def finished (p : MojJsonParser) : Bool := p.top.state = .stateFinish ∧ p.depth = 0

/-- `begin`: the depth stays as it is. -/
def begin (p : MojJsonParser) : MojJsonParser := { p with line := 1, col := 1, top := startRec }

/-- `MojJsonParser()`. -/
def init : MojJsonParser := ⟨0, 0, 0, 0, false, false, [], startRec, []⟩

/-! ## One character -/

/-- A visitor is a computation on a state of its own; the state outlives an error. -/
abbrev Visiting (τ : Type) := ExceptT MojErr (StateM τ)

variable {τ : Type} (visitor : JsonVisit → Visiting τ Unit)

def isHexDigit (c : MojByte) : Bool :=
  (48 ≤ c.val ∧ c.val ≤ 57) ∨ (65 ≤ c.val ∧ c.val ≤ 70) ∨ (97 ≤ c.val ∧ c.val ≤ 102)

def hexDigit (c : MojByte) : Nat := if c.val ≤ 57 then c.val - 48 else c.val % 8 + 9

/-- The bytes of a code unit; the two of a surrogate pair are not put together. -/
def utfOut (ucsChar : Nat) : List MojByte :=
  if ucsChar < 0x80 then [Fin.ofNat 256 ucsChar]
  else if ucsChar < 0x800 then
    [Fin.ofNat 256 (0xc0 + ucsChar / 64), Fin.ofNat 256 (0x80 + ucsChar % 64)]
  else [Fin.ofNat 256 (0xe0 + ucsChar / 4096), Fin.ofNat 256 (0x80 + ucsChar / 64 % 64),
    Fin.ofNat 256 (0x80 + ucsChar % 64)]

/-- The character an escape of one letter stands for. -/
def escapeChar (c : MojByte) : Option MojByte :=
  if c = quote ∨ c = backslash ∨ c = ch '/' then some c
  else if c = ch 'b' then some 8
  else if c = ch 'n' then some newline
  else if c = ch 'r' then some 13
  else if c = ch 't' then some 9
  else if c = ch 'f' then some 12
  else none

def append (p : MojJsonParser) (cs : List MojByte) : MojJsonParser := { p with str := p.str ++ cs }

def nullChar (p : MojJsonParser) (c : MojByte) : Visiting τ Outcome :=
  if MojJsonNullString[p.strPos]? ≠ some c then throw .jsonParseNull
  else
    let p := { p with strPos := p.strPos + 1 }
    if p.strPos = MojJsonNullString.length then do
      visitor .nullValue
      return .consumed (p.eatThen .stateFinish finish_ne)
    else return .consumed p

def boolChar (p : MojJsonParser) (c : MojByte) : Visiting τ Outcome :=
  let matchStr := if p.matchTrue then MojJsonTrueString else MojJsonFalseString
  if matchStr[p.strPos]? ≠ some c then throw .jsonParseBool
  else
    let p := { p with strPos := p.strPos + 1 }
    if p.strPos = matchStr.length then do
      visitor (.boolValue p.matchTrue)
      return .consumed (p.eatThen .stateFinish finish_ne)
    else return .consumed p

def isDecimalChar (c : MojByte) : Bool := c = ch '.' ∨ c = ch 'e' ∨ c = ch 'E'

def isNumberChar (c : MojByte) : Bool :=
  isDecimalChar c ∨ (digit? c).isSome ∨ c = ch '+' ∨ c = ch '-'

/-- `StateNumber` on a character of a number. -/
def numberChar (p : MojJsonParser) (c : MojByte) : MojJsonParser :=
  { p.append [c] with isDecimal := p.isDecimal || isDecimalChar c }

/-- `StateNumber` on the first character behind a number; an integer is reported before it is known
that all of it is one. -/
def numberValue (p : MojJsonParser) : Visiting τ Unit :=
  if p.isDecimal then
    match MojDecimal.assign p.str with
    | .error e => throw e
    | .ok d => visitor (.decimalValue d)
  else do
    visitor (.intValue (MojStrToInt64 p.str).1)
    if (MojStrToInt64 p.str).2 ≠ [] then throw .jsonParseInt

/-- `StateStart`, with the first character of a keyword or a number, which is looked at again. -/
def startChar (p : MojJsonParser) (c : MojByte) : Visiting τ Outcome :=
  if c = ch '{' then do
    visitor .beginObject
    return .consumed (p.eatThen .stateObjFieldStart objFieldStart_ne)
  else if c = ch '[' then do
    visitor .beginArray
    return .consumed (p.eatThen .stateArray array_ne)
  else if c = ch 'n' then nullChar visitor { p.goto .stateNull with strPos := 0 } c
  else if c = quote then return .consumed { p.goto .stateString with str := [] }
  else if c = ch 't' ∨ c = ch 'f' then
    boolChar visitor { p.goto .stateBool with strPos := 0, matchTrue := c = ch 't' } c
  else if (digit? c).isSome ∨ c = ch '-' then
    return .consumed (numberChar { p.goto .stateNumber with str := [], isDecimal := false } c)
  else if c = 0 then return .consumed p
  else throw .jsonParseUnexpected

def stringEscapeChar (p : MojJsonParser) (c : MojByte) : Visiting τ Outcome :=
  if c = ch 'u' then return .consumed { p.goto .stateEscapeUnicode with ucsChar := 0, strPos := 0 }
  else match escapeChar c with
    | none => throw .jsonParseEscape
    | some e => return .consumed ((p.append [e]).goto p.top.savedState)

def escapeUnicodeChar (p : MojJsonParser) (c : MojByte) : Visiting τ Outcome :=
  if isHexDigit c ∧ p.strPos ≤ 3 then
    let p := { p with ucsChar := p.ucsChar + hexDigit c * 2 ^ ((3 - p.strPos) * 4), strPos := p.strPos + 1 }
    if p.strPos = 4 then
      if p.ucsChar = 0 then throw .jsonParseEscape
      else return .consumed ((p.append (utfOut p.ucsChar)).goto p.top.savedState)
    else return .consumed p
  else throw .jsonParseEscape

/-- How many times a character is looked at again at most, from a state. -/
def weight : MojJsonState → Nat
  | .stateFinish => 1
  | .stateNumber => 3
  | .stateArray => 2
  | .stateObjValue => 3
  | _ => 0

def recWeight (r : MojJsonStackRec) : Nat :=
  if r.state = .stateEatWhitespace then 1 + weight r.savedState else weight r.state

def totalWeight (p : MojJsonParser) : Nat := recWeight p.top + (p.below.map recWeight).sum

theorem recWeight_of_state {r : MojJsonStackRec} {s : MojJsonState} (h : r.state = s)
    (hs : s ≠ .stateEatWhitespace) : recWeight r = weight s := by
  rw [recWeight, if_neg (by rw [h]; exact hs), h]

theorem goto_saved_lt {p : MojJsonParser} (h : p.top.state = .stateEatWhitespace) :
    (p.goto p.top.savedState).totalWeight < p.totalWeight := by
  have htop : recWeight p.top = 1 + weight p.top.savedState := by rw [recWeight, if_pos h]
  have htop' : recWeight (p.goto p.top.savedState).top = weight p.top.savedState :=
    recWeight_of_state rfl p.top.saved_ne
  have hbelow : (p.goto p.top.savedState).below = p.below := rfl
  simp only [totalWeight, htop, htop', hbelow]
  omega

theorem pop_lt {p : MojJsonParser} (h : p.top.state = .stateFinish) {r : MojJsonStackRec}
    {below : List MojJsonStackRec} (hb : p.below = r :: below) :
    totalWeight { p with top := r, below := below } < p.totalWeight := by
  have htop : recWeight p.top = 1 := recWeight_of_state h (by decide)
  simp only [totalWeight, htop, hb, List.map_cons, List.sum_cons]
  omega

theorem eatThen_finish_lt {p : MojJsonParser} (h : p.top.state = .stateNumber) :
    (p.eatThen .stateFinish finish_ne).totalWeight < p.totalWeight := by
  have htop : recWeight p.top = 3 := recWeight_of_state h (by decide)
  have htop' : recWeight (p.eatThen .stateFinish finish_ne).top = 2 := rfl
  have hbelow : (p.eatThen .stateFinish finish_ne).below = p.below := rfl
  simp only [totalWeight, htop, htop', hbelow]
  omega

theorem pushed_arraySep_lt {p : MojJsonParser} (h : p.top.state = .stateArray) :
    (p.goto .stateArraySep).pushed.totalWeight < p.totalWeight := by
  have htop : recWeight p.top = 2 := recWeight_of_state h (by decide)
  have htop' : recWeight (p.goto .stateArraySep).pushed.top = 1 := rfl
  have hbelow : (p.goto .stateArraySep).pushed.below = (p.goto .stateArraySep).top :: p.below := rfl
  have hsep : recWeight (p.goto .stateArraySep).top = 0 := rfl
  simp only [totalWeight, htop, htop', hbelow, List.map_cons, List.sum_cons, hsep]
  omega

theorem pushed_objSep_lt {p : MojJsonParser} (h : p.top.state = .stateObjValue) :
    (p.eatThen .stateObjSep objSep_ne).pushed.totalWeight < p.totalWeight := by
  have htop : recWeight p.top = 3 := recWeight_of_state h (by decide)
  have htop' : recWeight (p.eatThen .stateObjSep objSep_ne).pushed.top = 1 := rfl
  have hbelow : (p.eatThen .stateObjSep objSep_ne).pushed.below =
      (p.eatThen .stateObjSep objSep_ne).top :: p.below := rfl
  have hsep : recWeight (p.eatThen .stateObjSep objSep_ne).top = 1 := rfl
  simp only [totalWeight, htop, htop', hbelow, List.map_cons, List.sum_cons, hsep]
  omega

/-- One character; a call of `redo` is a `goto Redo`. -/
def redo (p : MojJsonParser) (c : MojByte) : Visiting τ Outcome :=
  match _h : p.top.state with
  | .stateEatWhitespace =>
    if isSpace c then return .consumed p
    else if c = ch '/' then return .consumed (p.goto .stateCommentStart)
    else redo (p.goto p.top.savedState) c
  | .stateStart => startChar visitor p c
  | .stateFinish =>
    match _hb : p.below with
    | [] => return .done p
    | r :: below => redo { p with top := r, below := below } c
  | .stateNull => nullChar visitor p c
  | .stateCommentStart =>
    if c = ch '*' then return .consumed (p.goto .stateComment)
    else if c = ch '/' then return .consumed (p.goto .stateCommentEol)
    else throw .jsonParseComment
  | .stateComment => return .consumed (if c = ch '*' then p.goto .stateCommentEnd else p)
  | .stateCommentEol => return .consumed (if c = newline then p.goto .stateEatWhitespace else p)
  | .stateCommentEnd =>
    -- anything but a slash is looked at again as part of the comment
    if c = ch '/' then return .consumed (p.goto .stateEatWhitespace)
    else if c = ch '*' then return .consumed (p.goto .stateCommentEnd)
    else return .consumed (p.goto .stateComment)
  | .stateString =>
    if c = quote then do
      visitor (.stringValue p.str)
      return .consumed (p.eatThen .stateFinish finish_ne)
    else if c = backslash then return .consumed (p.goSaving .stateStringEscape .stateString string_ne)
    else return .consumed (p.append [c])
  | .stateStringEscape => stringEscapeChar p c
  | .stateEscapeUnicode => escapeUnicodeChar p c
  | .stateBool => boolChar visitor p c
  | .stateNumber =>
    if isNumberChar c then return .consumed (numberChar p c)
    else do
      numberValue visitor p
      redo (p.eatThen .stateFinish finish_ne) c
  | .stateArray =>
    if c = ch ']' then do
      visitor .endArray
      return .consumed (p.eatThen .stateFinish finish_ne)
    else if p.depth ≥ MaxDepth - 1 then throw .jsonParseMaxDepth
    else redo (p.goto .stateArraySep).pushed c
  | .stateArraySep =>
    if c = ch ']' then do
      visitor .endArray
      return .consumed (p.eatThen .stateFinish finish_ne)
    else if c = ch ',' then return .consumed (p.eatThen .stateArray array_ne)
    else throw .jsonParseArray
  | .stateObjFieldStart =>
    if c = ch '}' then do
      visitor .endObject
      return .consumed (p.eatThen .stateFinish finish_ne)
    else if c = quote then return .consumed { p.goto .stateObjField with str := [] }
    else throw .jsonParsePropName
  | .stateObjField =>
    if c = quote then do
      visitor (.propName p.str)
      return .consumed (p.eatThen .stateObjFieldEnd objFieldEnd_ne)
    else if c = backslash then
      return .consumed (p.goSaving .stateStringEscape .stateObjField objField_ne)
    else return .consumed (p.append [c])
  | .stateObjFieldEnd =>
    if c = ch ':' then return .consumed (p.eatThen .stateObjValue objValue_ne)
    else throw .jsonParsePropName
  | .stateObjValue =>
    if p.depth ≥ MaxDepth - 1 then throw .jsonParseMaxDepth
    else redo (p.eatThen .stateObjSep objSep_ne).pushed c
  | .stateObjSep =>
    if c = ch '}' then do
      visitor .endObject
      return .consumed (p.eatThen .stateFinish finish_ne)
    else if c = ch ',' then return .consumed (p.eatThen .stateObjFieldStart objFieldStart_ne)
    else throw .jsonParseValueSep
  termination_by p.totalWeight
  decreasing_by
    · exact goto_saved_lt _h
    · exact pop_lt _h _hb
    · exact eatThen_finish_lt _h
    · exact pushed_arraySep_lt _h
    · exact pushed_objSep_lt _h

/-! ### The cases of `redo`, by the state -/

theorem redo_eatWhitespace {p : MojJsonParser} (h : p.top.state = .stateEatWhitespace) (c : MojByte) :
    redo visitor p c =
      if isSpace c then pure (.consumed p)
      else if c = ch '/' then pure (.consumed (p.goto .stateCommentStart))
      else redo visitor (p.goto p.top.savedState) c := by
  rw [redo]
  split <;> first | rfl | (rename_i hs; cases h.symm.trans hs)

theorem redo_start {p : MojJsonParser} (h : p.top.state = .stateStart) (c : MojByte) :
    redo visitor p c =
      startChar visitor p c := by
  rw [redo]
  split <;> first | rfl | (rename_i hs; cases h.symm.trans hs)

theorem redo_null {p : MojJsonParser} (h : p.top.state = .stateNull) (c : MojByte) :
    redo visitor p c =
      nullChar visitor p c := by
  rw [redo]
  split <;> first | rfl | (rename_i hs; cases h.symm.trans hs)

theorem redo_bool {p : MojJsonParser} (h : p.top.state = .stateBool) (c : MojByte) :
    redo visitor p c =
      boolChar visitor p c := by
  rw [redo]
  split <;> first | rfl | (rename_i hs; cases h.symm.trans hs)

theorem redo_stringEscape {p : MojJsonParser} (h : p.top.state = .stateStringEscape) (c : MojByte) :
    redo visitor p c =
      stringEscapeChar p c := by
  rw [redo]
  split <;> first | rfl | (rename_i hs; cases h.symm.trans hs)

theorem redo_escapeUnicode {p : MojJsonParser} (h : p.top.state = .stateEscapeUnicode) (c : MojByte) :
    redo visitor p c =
      escapeUnicodeChar p c := by
  rw [redo]
  split <;> first | rfl | (rename_i hs; cases h.symm.trans hs)

theorem redo_string {p : MojJsonParser} (h : p.top.state = .stateString) (c : MojByte) :
    redo visitor p c =
      if c = quote then do
        visitor (.stringValue p.str)
        return .consumed (p.eatThen .stateFinish finish_ne)
      else if c = backslash then return .consumed (p.goSaving .stateStringEscape .stateString string_ne)
      else return .consumed (p.append [c]) := by
  rw [redo]
  split <;> first | rfl | (rename_i hs; cases h.symm.trans hs)

theorem redo_number {p : MojJsonParser} (h : p.top.state = .stateNumber) (c : MojByte) :
    redo visitor p c =
      (if isNumberChar c then pure (.consumed (numberChar p c))
      else do
        numberValue visitor p
        redo visitor (p.eatThen .stateFinish finish_ne) c) := by
  rw [redo]
  split <;> first | rfl | (rename_i hs; cases h.symm.trans hs)

theorem redo_array {p : MojJsonParser} (h : p.top.state = .stateArray) (c : MojByte) :
    redo visitor p c =
      if c = ch ']' then do
        visitor .endArray
        return .consumed (p.eatThen .stateFinish finish_ne)
      else if p.depth ≥ MaxDepth - 1 then throw .jsonParseMaxDepth
      else redo visitor (p.goto .stateArraySep).pushed c := by
  rw [redo]
  split <;> first | rfl | (rename_i hs; cases h.symm.trans hs)

theorem redo_arraySep {p : MojJsonParser} (h : p.top.state = .stateArraySep) (c : MojByte) :
    redo visitor p c =
      if c = ch ']' then do
        visitor .endArray
        return .consumed (p.eatThen .stateFinish finish_ne)
      else if c = ch ',' then pure (.consumed (p.eatThen .stateArray array_ne))
      else throw .jsonParseArray := by
  rw [redo]
  split <;> first | rfl | (rename_i hs; cases h.symm.trans hs)

theorem redo_objFieldStart {p : MojJsonParser} (h : p.top.state = .stateObjFieldStart) (c : MojByte) :
    redo visitor p c =
      if c = ch '}' then do
        visitor .endObject
        return .consumed (p.eatThen .stateFinish finish_ne)
      else if c = quote then return .consumed { p.goto .stateObjField with str := [] }
      else throw .jsonParsePropName := by
  rw [redo]
  split <;> first | rfl | (rename_i hs; cases h.symm.trans hs)

theorem redo_objField {p : MojJsonParser} (h : p.top.state = .stateObjField) (c : MojByte) :
    redo visitor p c =
      if c = quote then do
        visitor (.propName p.str)
        return .consumed (p.eatThen .stateObjFieldEnd objFieldEnd_ne)
      else if c = backslash then
        return .consumed (p.goSaving .stateStringEscape .stateObjField objField_ne)
      else return .consumed (p.append [c]) := by
  rw [redo]
  split <;> first | rfl | (rename_i hs; cases h.symm.trans hs)

theorem redo_objFieldEnd {p : MojJsonParser} (h : p.top.state = .stateObjFieldEnd) (c : MojByte) :
    redo visitor p c =
      if c = ch ':' then pure (.consumed (p.eatThen .stateObjValue objValue_ne))
      else throw .jsonParsePropName := by
  rw [redo]
  split <;> first | rfl | (rename_i hs; cases h.symm.trans hs)

theorem redo_objValue {p : MojJsonParser} (h : p.top.state = .stateObjValue) (c : MojByte) :
    redo visitor p c =
      if p.depth ≥ MaxDepth - 1 then throw .jsonParseMaxDepth
      else redo visitor (p.eatThen .stateObjSep objSep_ne).pushed c := by
  rw [redo]
  split <;> first | rfl | (rename_i hs; cases h.symm.trans hs)

theorem redo_objSep {p : MojJsonParser} (h : p.top.state = .stateObjSep) (c : MojByte) :
    redo visitor p c =
      if c = ch '}' then do
        visitor .endObject
        return .consumed (p.eatThen .stateFinish finish_ne)
      else if c = ch ',' then pure (.consumed (p.eatThen .stateObjFieldStart objFieldStart_ne))
      else throw .jsonParseValueSep := by
  rw [redo]
  split <;> first | rfl | (rename_i hs; cases h.symm.trans hs)

theorem redo_pop {p : MojJsonParser} (h : p.top.state = .stateFinish) {r : MojJsonStackRec}
    {below : List MojJsonStackRec} (hb : p.below = r :: below) (c : MojByte) :
    redo visitor p c = redo visitor { p with top := r, below := below } c := by
  rw [redo]
  split <;> try (rename_i hs; cases h.symm.trans hs; done)
  split
  · rename_i hnil
    cases hb.symm.trans hnil
  · rename_i hcons
    cases hb.symm.trans hcons
    rfl

theorem redo_done {p : MojJsonParser} (h : p.top.state = .stateFinish) (hb : p.below = [])
    (c : MojByte) : redo visitor p c = pure (.done p) := by
  rw [redo]
  split <;> try (rename_i hs; cases h.symm.trans hs; done)
  split
  · rfl
  · rename_i hcons
    cases hb.symm.trans hcons

/-! ## A piece of the text -/

/-- The lines are counted as the characters come, before anything is done with them. -/
def countLine (p : MojJsonParser) (c : MojByte) : MojJsonParser :=
  if c = newline then { p with line := p.line + 1, col := 1 } else p

/-- The parser afterwards and the characters from `parseEnd` on. -/
def parseChunk (p : MojJsonParser) : List MojByte → Visiting τ (MojJsonParser × List MojByte)
  | [] => return (p, [])
  | c :: chars => do
    match ← redo visitor (p.countLine c) c with
    | .done p => return (p, c :: chars)
    | .consumed p => parseChunk { p with col := p.col + 1 } chars

/-- `end`. -/
def parseEnd (p : MojJsonParser) : Visiting τ MojJsonParser := do
  let (p, _) ← parseChunk visitor p [0]
  return p

/-- `end`, and the error of a text that is no whole value. -/
def finish (p : MojJsonParser) : Visiting τ Unit := do
  let p ← parseEnd visitor p
  if ¬ p.finished then throw .jsonParseEof

/-- `MojJsonParser::parse`. -/
def parse (chars : List MojByte) : Visiting τ Unit := do
  let (p, _) ← parseChunk visitor init.begin chars
  finish visitor p

/-- `parse` of a string that ends with a zero: `len` is `MojSizeMax` then and `end` null, so that characters are read until the
value is finished. `behind` is what lies behind the zero; the result is false where that is not enough. -/
def parseStr (chars behind : List MojByte) : Visiting τ Bool := do
  let (p, rest) ← parseChunk visitor init.begin (chars ++ 0 :: behind)
  if rest = [] then return false
  else do
    finish visitor p
    return true

/-- One call of `parseChunk` after the other. -/
def feed (p : MojJsonParser) (chunks : List (List MojByte)) : Visiting τ MojJsonParser :=
  chunks.foldlM (fun p chunk => do
    let (p, _) ← parseChunk visitor p chunk
    return p) p

/-- The whole text in pieces. -/
def parseChunks (chunks : List (List MojByte)) : Visiting τ Unit := do
  let p ← feed visitor init.begin chunks
  finish visitor p

/-! ## Cutting a text -/

/-- `goto Done` is only reached when the value is finished. -/
def DoneFinished : Outcome → Prop
  | .consumed _ => True
  | .done p => p.finished = true

theorem consumed_ensures (p : MojJsonParser) :
    Ensures (pure (.consumed p) : Visiting τ Outcome) DoneFinished := .pure trivial

theorem visit_ensures (v : JsonVisit) (p : MojJsonParser) :
    Ensures (do visitor v; return .consumed p) DoneFinished :=
  (Ensures.top (visitor v)).bind fun _ _ => consumed_ensures p

theorem nullChar_ensures (p : MojJsonParser) (c : MojByte) : Ensures (nullChar visitor p c) DoneFinished := by
  simp only [nullChar]
  split_ifs
  · exact .throw _
  · exact visit_ensures visitor _ _
  · exact consumed_ensures _

theorem boolChar_ensures (p : MojJsonParser) (c : MojByte) : Ensures (boolChar visitor p c) DoneFinished := by
  simp only [boolChar]
  generalize (if p.matchTrue = true then MojJsonTrueString else MojJsonFalseString) = matchStr
  split_ifs
  · exact .throw _
  · exact visit_ensures visitor _ _
  · exact consumed_ensures _

theorem startChar_ensures (p : MojJsonParser) (c : MojByte) : Ensures (startChar visitor p c) DoneFinished := by
  simp only [startChar]
  split_ifs
  · exact visit_ensures visitor _ _
  · exact visit_ensures visitor _ _
  · exact nullChar_ensures visitor _ _
  · exact consumed_ensures _
  · exact boolChar_ensures visitor _ _
  · exact consumed_ensures _
  · exact consumed_ensures _
  · exact .throw _

theorem stringEscapeChar_ensures (p : MojJsonParser) (c : MojByte) :
    Ensures (stringEscapeChar p c : Visiting τ Outcome) DoneFinished := by
  simp only [stringEscapeChar]
  split_ifs
  · exact consumed_ensures _
  · split
    · exact .throw _
    · exact consumed_ensures _

theorem escapeUnicodeChar_ensures (p : MojJsonParser) (c : MojByte) :
    Ensures (escapeUnicodeChar p c : Visiting τ Outcome) DoneFinished := by
  simp only [escapeUnicodeChar]
  split_ifs
  · exact .throw _
  · exact consumed_ensures _
  · exact consumed_ensures _
  · exact .throw _

theorem redo_ensures (p : MojJsonParser) (c : MojByte) : Ensures (redo visitor p c) DoneFinished := by
  fun_induction redo visitor p c
  case case4 => exact startChar_ensures visitor _ _
  case case5 p hstate hbelow =>
    refine .pure ?_
    change p.finished = true
    simp [finished, depth, hstate, hbelow]
  case case7 => exact nullChar_ensures visitor _ _
  case case19 => exact stringEscapeChar_ensures _ _
  case case20 => exact escapeUnicodeChar_ensures _ _
  case case21 => exact boolChar_ensures visitor _ _
  case case23 p _ _ ih => exact (Ensures.top (numberValue visitor p)).bind fun _ _ => ih
  all_goals first
    | assumption
    | exact consumed_ensures _
    | exact visit_ensures visitor _ _
    | exact .throw _

theorem finished_iff {p : MojJsonParser} :
    p.finished = true ↔ p.top.state = .stateFinish ∧ p.below = [] := by
  simp [finished, depth]

theorem finished_countLine {p : MojJsonParser} (h : p.finished = true) (c : MojByte) :
    (p.countLine c).finished = true := by
  unfold countLine
  split_ifs
  · exact h
  · exact h

theorem redo_of_finished {p : MojJsonParser} (h : p.finished = true) (c : MojByte) :
    redo visitor p c = pure (.done p) := by
  obtain ⟨hstate, hbelow⟩ := finished_iff.mp h
  exact redo_done visitor hstate hbelow c

theorem parseChunk_cons (p : MojJsonParser) (c : MojByte) (chars : List MojByte) :
    parseChunk visitor p (c :: chars) = (do
      match ← redo visitor (p.countLine c) c with
      | .done p => return (p, c :: chars)
      | .consumed p => parseChunk visitor { p with col := p.col + 1 } chars) := rfl

/-- Characters are left over only behind a finished value. -/
theorem parseChunk_ensures (p : MojJsonParser) (chars : List MojByte) :
    Ensures (parseChunk visitor p chars) fun r => r.2 ≠ [] → r.1.finished = true := by
  induction chars generalizing p with
  | nil => exact .pure fun h => absurd rfl h
  | cons c chars ih =>
    rw [parseChunk_cons]
    refine (redo_ensures visitor (p.countLine c) c).bind ?_
    intro o ho
    cases o with
    | consumed p' => exact ih _
    | done p' => exact .pure fun _ => ho

/-- A piece in two parts: the second part is looked at unless the value ends in the first. -/
theorem parseChunk_append (p : MojJsonParser) (a b : List MojByte) :
    parseChunk visitor p (a ++ b) = (do
      let r ← parseChunk visitor p a
      if r.2 = [] then parseChunk visitor r.1 b else return (r.1, r.2 ++ b)) := by
  induction a generalizing p with
  | nil => simp [parseChunk]
  | cons c a ih =>
    rw [List.cons_append, parseChunk_cons, parseChunk_cons, bind_assoc]
    congr 1
    funext o
    cases o with
    | consumed p' => exact ih _
    | done p' => simp

theorem parseChunk_of_finished {p : MojJsonParser} (h : p.finished = true) (chars : List MojByte) :
    ∃ p', p'.finished = true ∧ parseChunk visitor p chars = pure (p', chars) := by
  cases chars with
  | nil => exact ⟨p, h, rfl⟩
  | cons c chars =>
    refine ⟨p.countLine c, finished_countLine h c, ?_⟩
    rw [parseChunk_cons, redo_of_finished visitor (finished_countLine h c), pure_bind]

theorem finish_of_finished {p : MojJsonParser} (h : p.finished = true) :
    finish visitor p = pure () := by
  obtain ⟨p', hp', hchunk⟩ := parseChunk_of_finished visitor h [0]
  simp [finish, parseEnd, hchunk, hp']

theorem parseChunk_finish_of_finished {p : MojJsonParser} (h : p.finished = true) (chars : List MojByte) :
    (do let r ← parseChunk visitor p chars; finish visitor r.1) = pure () := by
  obtain ⟨p', hp', hchunk⟩ := parseChunk_of_finished visitor h chars
  rw [hchunk, pure_bind, finish_of_finished visitor hp']

theorem feed_finish (p : MojJsonParser) (chunks : List (List MojByte)) :
    (do let p ← feed visitor p chunks; finish visitor p) =
      (do let r ← parseChunk visitor p chunks.flatten; finish visitor r.1) := by
  induction chunks generalizing p with
  | nil => simp [feed, parseChunk]
  | cons chunk chunks ih =>
    have hfeed : feed visitor p (chunk :: chunks) = (do
        let r ← parseChunk visitor p chunk
        feed visitor r.1 chunks) := by
      simp only [feed, List.foldlM_cons, bind_assoc, pure_bind]
    rw [hfeed, List.flatten_cons, parseChunk_append, bind_assoc, bind_assoc]
    refine (parseChunk_ensures visitor p chunk).bind_congr ?_
    intro r hr
    rw [ih]
    by_cases hrest : r.2 = []
    · rw [if_pos hrest]
    · rw [if_neg hrest, pure_bind, finish_of_finished visitor (hr hrest),
        parseChunk_finish_of_finished visitor (hr hrest)]

/-- **Cutting a text changes nothing.** For every visitor, every text and every way of cutting it,
the pieces one after the other make the same calls of the visitor, in the same order, and return or
fail as the whole text does: the two are the same computation on the state of the visitor. -/
theorem parseChunks_flatten (chunks : List (List MojByte)) :
    parseChunks visitor chunks = parse visitor chunks.flatten :=
  feed_finish visitor init.begin chunks

/-! ## What the visitor keeps -/

section Keeps

variable {visitor} {I : τ → Prop} (hI : ∀ v, v ≠ .decimalValue MojDecimal.least → Keeps I (visitor v))

include hI

theorem visit_keeps {v : JsonVisit} (hv : v ≠ .decimalValue MojDecimal.least) (p : MojJsonParser) :
    Keeps I (do visitor v; return Outcome.consumed p) :=
  (hI v hv).bind fun _ => .pure _

theorem nullChar_keeps (p : MojJsonParser) (c : MojByte) : Keeps I (nullChar visitor p c) := by
  simp only [nullChar]
  split_ifs
  · exact .throw _
  · exact visit_keeps hI JsonVisit.noConfusion _
  · exact .pure _

theorem boolChar_keeps (p : MojJsonParser) (c : MojByte) : Keeps I (boolChar visitor p c) := by
  simp only [boolChar]
  generalize (if p.matchTrue = true then MojJsonTrueString else MojJsonFalseString) = matchStr
  split_ifs
  · exact .throw _
  · exact visit_keeps hI JsonVisit.noConfusion _
  · exact .pure _

theorem startChar_keeps (p : MojJsonParser) (c : MojByte) : Keeps I (startChar visitor p c) := by
  simp only [startChar]
  split_ifs
  · exact visit_keeps hI JsonVisit.noConfusion _
  · exact visit_keeps hI JsonVisit.noConfusion _
  · exact nullChar_keeps hI _ _
  · exact .pure _
  · exact boolChar_keeps hI _ _
  · exact .pure _
  · exact .pure _
  · exact .throw _

theorem numberValue_keeps (p : MojJsonParser) : Keeps I (numberValue visitor p) := by
  unfold numberValue
  split_ifs with hdecimal
  · cases hd : MojDecimal.assign p.str with
    | error e => exact .throw _
    | ok d =>
      refine hI _ fun he => ?_
      cases he
      exact MojDecimal.assign_ne_least hd rfl
  · refine (hI _ JsonVisit.noConfusion).bind fun _ => ?_
    exact .throw _
  · refine (hI _ JsonVisit.noConfusion).bind fun _ => ?_
    exact .pure _

omit hI in
theorem stringEscapeChar_keeps (p : MojJsonParser) (c : MojByte) :
    Keeps I (stringEscapeChar p c : Visiting τ Outcome) := by
  simp only [stringEscapeChar]
  split_ifs
  · exact .pure _
  · split
    · exact .throw _
    · exact .pure _

omit hI in
theorem escapeUnicodeChar_keeps (p : MojJsonParser) (c : MojByte) :
    Keeps I (escapeUnicodeChar p c : Visiting τ Outcome) := by
  simp only [escapeUnicodeChar]
  split_ifs
  · exact .throw _
  · exact .pure _
  · exact .pure _
  · exact .throw _

theorem redo_keeps (p : MojJsonParser) (c : MojByte) : Keeps I (redo visitor p c) := by
  fun_induction redo visitor p c
  case case4 => exact startChar_keeps hI _ _
  case case7 => exact nullChar_keeps hI _ _
  case case19 => exact stringEscapeChar_keeps _ _
  case case20 => exact escapeUnicodeChar_keeps _ _
  case case21 => exact boolChar_keeps hI _ _
  case case23 p _ _ ih => exact (numberValue_keeps hI p).bind fun _ => ih
  all_goals first
    | assumption
    | exact .pure _
    | exact visit_keeps hI JsonVisit.noConfusion _
    | exact .throw _

theorem parseChunk_keeps (p : MojJsonParser) (chars : List MojByte) :
    Keeps I (parseChunk visitor p chars) := by
  induction chars generalizing p with
  | nil => exact .pure _
  | cons c chars ih =>
    rw [parseChunk_cons]
    refine (redo_keeps hI (p.countLine c) c).bind fun o => ?_
    cases o with
    | consumed p' => exact ih _
    | done p' => exact .pure _

/-- No text makes the parser report the least decimal, so what all other calls keep it keeps. -/
theorem parse_keeps (chars : List MojByte) : Keeps I (parse visitor chars) := by
  refine (parseChunk_keeps hI init.begin chars).bind fun r => ?_
  refine ((parseChunk_keeps hI r.1 [0]).bind fun r => .pure r.1).bind fun q => ?_
  split_ifs
  · exact .pure _
  · exact .throw _

end Keeps

end MojJsonParser

end Db8
