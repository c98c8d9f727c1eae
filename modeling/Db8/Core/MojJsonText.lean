import Db8.Core.MojJson
import Db8.Core.MojNumberValue

/-!
# Core.MojJsonText

The texts of RFC 8259 as trees, apart from any parser.

* `JsonValue`, `JsonText` — the rules of the grammar; a tree keeps the white space, the way each character is written, and the
  parts of each number.
* `JsonValue.events`      — the events of a tree, for any reading of its strings and its numbers.
* `spell`                 — the bytes of a string: two escapes of a surrogate pair name one code point.
* `NumberStands`          — the event that stands for a number.
* `spell_eq_iff`          — byte by byte a string comes out as it should just when it has no such pair.
-/

namespace Db8

open Lib MojJsonParser MojNumber

/-! ## The rules -/

/-- `ws` -/
inductive JsonWs where
  | space | horizontalTab | lineFeed | carriageReturn
  deriving DecidableEq

structure HexDigit where
  value : Fin 16
  capital : Bool
  deriving DecidableEq

/-- What may follow the backslash of an escape of two characters. -/
inductive JsonEscape where
  | quotationMark | reverseSolidus | solidus | backspace | formFeed | lineFeed | carriageReturn | tab
  deriving DecidableEq

/-- `char`; what is not escaped is a byte of UTF-8. -/
inductive JsonChar where
  | unescaped (c : MojByte) (ge : 32 ≤ c.val) (ne_quote : c ≠ quote) (ne_backslash : c ≠ backslash)
  | escaped (e : JsonEscape)
  | unicode (a b c d : HexDigit)
  deriving DecidableEq

/-- `number`: no plus sign in front, and no zero in front of other digits. -/
structure JsonNumber where
  num : Numeral
  no_plus : num.sign ≠ some true
  magnitude_eq : ∃ d ds, num.magnitude = d :: ds ∧ (d = 0 → ds = [])

structure Padded (α : Type) where
  before : List JsonWs
  value : α
  after : List JsonWs

structure JsonMember (α : Type) where
  before : List JsonWs
  name : List JsonChar
  after : List JsonWs
  value : Padded α

/-- `value`; the white space behind a bracket or a brace is there for those with nothing else in them. -/
inductive JsonValue where
  | null
  | bool (b : Bool)
  | number (n : JsonNumber)
  | string (s : List JsonChar)
  | array (blank : List JsonWs) (elements : List (Padded JsonValue))
  | object (blank : List JsonWs) (members : List (JsonMember JsonValue))

/-- `JSON-text` -/
abbrev JsonText := Padded JsonValue

/-! ## The characters of a tree -/

namespace JsonWs

def char : JsonWs → MojByte
  | .space => 32
  | .horizontalTab => 9
  | .lineFeed => newline
  | .carriageReturn => 13

def text (blank : List JsonWs) : List MojByte := blank.map char

end JsonWs

def HexDigit.char (d : HexDigit) : MojByte :=
  if d.value.val < 10 then Fin.ofNat 256 (48 + d.value.val)
  else if d.capital then Fin.ofNat 256 (55 + d.value.val) else Fin.ofNat 256 (87 + d.value.val)

namespace JsonEscape

def letter : JsonEscape → MojByte
  | .quotationMark => quote
  | .reverseSolidus => backslash
  | .solidus => ch '/'
  | .backspace => ch 'b'
  | .formFeed => ch 'f'
  | .lineFeed => ch 'n'
  | .carriageReturn => ch 'r'
  | .tab => ch 't'

def meant : JsonEscape → MojByte
  | .quotationMark => 0x22
  | .reverseSolidus => 0x5c
  | .solidus => 0x2f
  | .backspace => 0x08
  | .formFeed => 0x0c
  | .lineFeed => 0x0a
  | .carriageReturn => 0x0d
  | .tab => 0x09

end JsonEscape

namespace JsonChar

def text : JsonChar → List MojByte
  | .unescaped c .. => [c]
  | .escaped e => [backslash, e.letter]
  | .unicode a b c d => [backslash, ch 'u', a.char, b.char, c.char, d.char]

def codeUnit (a b c d : HexDigit) : Nat := a.value * 4096 + b.value * 256 + c.value * 16 + d.value

/-- `\u0000` -/
def isNul : JsonChar → Bool
  | .unicode a b c d => codeUnit a b c d = 0
  | _ => false

def stringText (s : List JsonChar) : List MojByte := quote :: (s.flatMap text ++ [quote])

end JsonChar

open JsonChar in
mutual
def JsonValue.text : JsonValue → List MojByte
  | .null => MojJsonNullString
  | .bool b => if b then MojJsonTrueString else MojJsonFalseString
  | .number n => n.num.text
  | .string s => stringText s
  | .array blank xs => ch '[' :: (JsonWs.text blank ++ (elementsText false xs ++ [ch ']']))
  | .object blank ms => ch '{' :: (JsonWs.text blank ++ (membersText false ms ++ [ch '}']))

/-- `comma` says that an element stands in front. -/
def elementsText (comma : Bool) : List (Padded JsonValue) → List MojByte
  | [] => []
  | ⟨before, v, after⟩ :: xs =>
    MojObject.commaIf comma ++ (JsonWs.text before ++ (v.text ++ (JsonWs.text after ++ elementsText true xs)))

def membersText (comma : Bool) : List (JsonMember JsonValue) → List MojByte
  | [] => []
  | ⟨before, name, after, ⟨before', v, after'⟩⟩ :: ms =>
    MojObject.commaIf comma ++ (JsonWs.text before ++ (stringText name ++ (JsonWs.text after ++ (ch ':' ::
      (JsonWs.text before' ++ (v.text ++ (JsonWs.text after' ++ membersText true ms)))))))
end

def JsonText.text (t : JsonText) : List MojByte := JsonWs.text t.before ++ (t.value.text ++ JsonWs.text t.after)

/-! ## What a tree stands for -/

/-- The parts of a text that a visitor hears of, as they are written. -/
inductive JsonToken where
  | beginObject | endObject | beginArray | endArray
  | null
  | bool (b : Bool)
  | name (s : List JsonChar)
  | string (s : List JsonChar)
  | number (n : JsonNumber)

/-- The call for a token, for any reading of strings and numbers. -/
def JsonToken.visit (spelled : List JsonChar → List MojByte) (counted : JsonNumber → JsonVisit) : JsonToken → JsonVisit
  | .beginObject => .beginObject
  | .endObject => .endObject
  | .beginArray => .beginArray
  | .endArray => .endArray
  | .null => .nullValue
  | .bool b => .boolValue b
  | .name s => .propName (spelled s)
  | .string s => .stringValue (spelled s)
  | .number n => counted n

mutual
def JsonValue.tokens : JsonValue → List JsonToken
  | .null => [.null]
  | .bool b => [.bool b]
  | .number n => [.number n]
  | .string s => [.string s]
  | .array _ xs => .beginArray :: (elementsTokens xs ++ [.endArray])
  | .object _ ms => .beginObject :: (membersTokens ms ++ [.endObject])

def elementsTokens : List (Padded JsonValue) → List JsonToken
  | [] => []
  | ⟨_, v, _⟩ :: xs => v.tokens ++ elementsTokens xs

def membersTokens : List (JsonMember JsonValue) → List JsonToken
  | [] => []
  | ⟨_, name, _, ⟨_, v, _⟩⟩ :: ms => .name name :: (v.tokens ++ membersTokens ms)
end

namespace JsonValue

/-- The strings of a value, the names of its properties among them. -/
def strings (v : JsonValue) : List (List JsonChar) :=
  v.tokens.filterMap fun
    | .name s => some s
    | .string s => some s
    | _ => none

def numbers (v : JsonValue) : List JsonNumber :=
  v.tokens.filterMap fun
    | .number n => some n
    | _ => none

/-- The events of a value, in the order of the text. -/
def events (spelled : List JsonChar → List MojByte) (counted : JsonNumber → JsonVisit) (v : JsonValue) : List JsonVisit :=
  v.tokens.map (JsonToken.visit spelled counted)

end JsonValue

mutual
/-- How deep the innermost value lies. -/
def JsonValue.nesting : JsonValue → Nat
  | .array _ xs => elementsNesting xs
  | .object _ ms => membersNesting ms
  | _ => 0

def elementsNesting : List (Padded JsonValue) → Nat
  | [] => 0
  | ⟨_, v, _⟩ :: xs => max (v.nesting + 1) (elementsNesting xs)

def membersNesting : List (JsonMember JsonValue) → Nat
  | [] => 0
  | ⟨_, _, _, ⟨_, v, _⟩⟩ :: ms => max (v.nesting + 1) (membersNesting ms)
end

/-! ### Numbers -/

namespace JsonNumber

/-- Without a point and without an exponent. -/
def isInteger (n : JsonNumber) : Bool := n.num.fraction = [] ∧ n.num.exponent.isNone

def integer (n : JsonNumber) : Int :=
  if n.num.positive then numeral 0 n.num.magnitude else -(numeral 0 n.num.magnitude : Int)

/-- An integer fits into 64 bits; of a decimal one of the nearest numbers of millionths does. -/
def InRange (n : JsonNumber) : Prop :=
  if n.isInteger then FitsInt64 n.integer else ∃ m, Nearest m n.num.millionths ∧ FitsInt64 m

end JsonNumber

/-- An integer stands for its value, a decimal for its value to six places. -/
def NumberStands (n : JsonNumber) : JsonVisit → Prop
  | .intValue i => n.isInteger = true ∧ i.toInt = n.integer
  | .decimalValue d => n.isInteger = false ∧ Nearest d.rep.toInt n.num.millionths
  | _ => False

/-! ### Strings -/

/-- The bytes of a code point in UTF-8. -/
def utf8 (codePoint : Nat) : List MojByte :=
  if codePoint < 0x80 then [Fin.ofNat 256 codePoint]
  else if codePoint < 0x800 then
    [Fin.ofNat 256 (0xc0 + codePoint / 64), Fin.ofNat 256 (0x80 + codePoint % 64)]
  else if codePoint < 0x10000 then
    [Fin.ofNat 256 (0xe0 + codePoint / 4096), Fin.ofNat 256 (0x80 + codePoint / 64 % 64),
      Fin.ofNat 256 (0x80 + codePoint % 64)]
  else
    [Fin.ofNat 256 (0xf0 + codePoint / 262144), Fin.ofNat 256 (0x80 + codePoint / 4096 % 64),
      Fin.ofNat 256 (0x80 + codePoint / 64 % 64), Fin.ofNat 256 (0x80 + codePoint % 64)]

namespace JsonChar

/-- The bytes of a character that is no half of a pair. -/
def bytes : JsonChar → List MojByte
  | .unescaped c .. => [c]
  | .escaped e => [e.meant]
  | .unicode a b c d => utf8 (codeUnit a b c d)

/-- The code point of a surrogate pair. -/
def paired? : JsonChar → JsonChar → Option Nat
  | .unicode a b c d, .unicode a' b' c' d' =>
    if 0xd800 ≤ codeUnit a b c d ∧ codeUnit a b c d < 0xdc00 ∧ 0xdc00 ≤ codeUnit a' b' c' d' ∧ codeUnit a' b' c' d' < 0xe000
    then some (0x10000 + (codeUnit a b c d - 0xd800) * 0x400 + (codeUnit a' b' c' d' - 0xdc00))
    else none
  | _, _ => none

/-- The bytes of a string. -/
def spell : List JsonChar → List MojByte
  | [] => []
  | [x] => x.bytes
  | x :: y :: s =>
    match paired? x y with
    | some codePoint => utf8 codePoint ++ spell s
    | none => x.bytes ++ spell (y :: s)

/-- No two characters that come one after the other are a surrogate pair. -/
def NoPair (s : List JsonChar) : Prop := s.IsChain fun x y => paired? x y = none

theorem codeUnit_lt (a b c d : HexDigit) : codeUnit a b c d < 0x10000 := by
  have ha := a.value.isLt
  have hb := b.value.isLt
  have hc := c.value.isLt
  have hd := d.value.isLt
  unfold codeUnit
  omega

theorem length_utf8_surrogate {n : Nat} (hlow : 0xd800 ≤ n) (hhigh : n < 0x10000) : (utf8 n).length = 3 := by
  rw [utf8, if_neg (by omega), if_neg (by omega), if_pos hhigh]
  rfl

theorem length_utf8_le {n : Nat} : (utf8 n).length ≤ 4 := by
  unfold utf8
  split_ifs <;> simp

/-- A pair takes four bytes, its halves taken one by one take six. -/
theorem length_lt_of_paired {x y : JsonChar} {codePoint : Nat} (h : paired? x y = some codePoint) :
    (utf8 codePoint).length < (x.bytes ++ y.bytes).length := by
  cases x with
  | unicode a b c d =>
    cases y with
    | unicode a' b' c' d' =>
      simp only [paired?] at h
      split_ifs at h with hpair
      have hx := length_utf8_surrogate hpair.1 (codeUnit_lt a b c d)
      have hy := length_utf8_surrogate (by omega : 0xd800 ≤ codeUnit a' b' c' d') (codeUnit_lt a' b' c' d')
      have hle := @length_utf8_le codePoint
      simp only [bytes, List.length_append, hx, hy]
      omega
    | _ => cases h
  | _ => cases h

theorem length_spell_le (s : List JsonChar) : (spell s).length ≤ (s.flatMap bytes).length := by
  fun_induction spell s with
  | case1 => simp
  | case2 x => simp
  | case3 x y s codePoint h ih =>
    have hlt := length_lt_of_paired h
    simp only [List.flatMap_cons, List.length_append] at hlt ih ⊢
    omega
  | case4 x y s h ih =>
    simp only [List.flatMap_cons, List.length_append] at ih ⊢
    omega

/-- Character by character a string comes out as it should just when it has no surrogate pair. -/
theorem spell_eq_iff (s : List JsonChar) : s.flatMap bytes = spell s ↔ NoPair s := by
  fun_induction spell s with
  | case1 => simp [NoPair]
  | case2 x => simp [NoPair]
  | case3 x y s codePoint h ih =>
    have hne : paired? x y ≠ none := by simp [h]
    refine ⟨fun he => ?_, fun hchain => absurd (List.isChain_cons_cons.mp hchain).1 hne⟩
    have hlt := length_lt_of_paired h
    have hle := length_spell_le s
    have hlen := congrArg List.length he
    simp only [List.flatMap_cons, List.length_append] at hlt hlen
    omega
  | case4 x y s h ih =>
    rw [List.flatMap_cons, List.append_cancel_left_eq, ih, NoPair, NoPair, List.isChain_cons_cons]
    exact ⟨fun hchain => ⟨h, hchain⟩, And.right⟩

end JsonChar

/-! ## Trees -/

namespace JsonValue

@[elab_as_elim]
theorem inductionOn {P : JsonValue → Prop} (v : JsonValue) (null : P .null) (bool : ∀ b, P (.bool b))
    (number : ∀ n, P (.number n)) (string : ∀ s, P (.string s))
    (array : ∀ blank xs, (∀ x ∈ xs, P x.value) → P (.array blank xs))
    (object : ∀ blank ms, (∀ m ∈ ms, P m.value.value) → P (.object blank ms)) : P v := by
  refine @JsonValue.rec P (fun xs => ∀ x ∈ xs, P x.value) (fun ms => ∀ m ∈ ms, P m.value.value)
    (fun x => P x.value) (fun m => P m.value.value) null bool number string array object ?_ ?_ ?_ ?_ ?_ ?_ v
  · intro x hx
    cases hx
  · intro x xs hx hxs y hy
    rcases List.mem_cons.mp hy with rfl | hy
    exacts [hx, hxs y hy]
  · intro m hm
    cases hm
  · intro m ms hm hms k hk
    rcases List.mem_cons.mp hk with rfl | hk
    exacts [hm, hms k hk]
  · intro before v after hv
    exact hv
  · intro before name after v hv
    exact hv

theorem mem_strings {v : JsonValue} {s : List JsonChar} :
    s ∈ v.strings ↔ .name s ∈ v.tokens ∨ .string s ∈ v.tokens := by
  simp only [strings, List.mem_filterMap]
  constructor
  · rintro ⟨token, hmem, htoken⟩
    cases token <;> cases htoken
    · exact .inl hmem
    · exact .inr hmem
  · rintro (hmem | hmem)
    · exact ⟨_, hmem, rfl⟩
    · exact ⟨_, hmem, rfl⟩

theorem mem_numbers {v : JsonValue} {n : JsonNumber} : n ∈ v.numbers ↔ .number n ∈ v.tokens := by
  simp only [numbers, List.mem_filterMap]
  constructor
  · rintro ⟨token, hmem, htoken⟩
    cases token <;> cases htoken
    exact hmem
  · intro hmem
    exact ⟨_, hmem, rfl⟩

/-- Two readings of a text agree when they do on its strings and its numbers. -/
theorem events_eq_iff {v : JsonValue} {spelled spelled' : List JsonChar → List MojByte} {counted counted' : JsonNumber → JsonVisit} :
    v.events spelled counted = v.events spelled' counted' ↔
      (∀ s ∈ v.strings, spelled s = spelled' s) ∧ ∀ n ∈ v.numbers, counted n = counted' n := by
  rw [events, events, List.map_inj_left]
  constructor
  · intro h
    refine ⟨fun s hs => ?_, fun n hn => h _ (mem_numbers.mp hn)⟩
    rcases mem_strings.mp hs with hs | hs
    · exact JsonVisit.propName.inj (h _ hs)
    · exact JsonVisit.stringValue.inj (h _ hs)
  · rintro ⟨hstrings, hnumbers⟩ token hmem
    cases token with
    | name s => exact congrArg JsonVisit.propName (hstrings s (mem_strings.mpr (.inl hmem)))
    | string s => exact congrArg JsonVisit.stringValue (hstrings s (mem_strings.mpr (.inr hmem)))
    | number n => exact hnumbers n (mem_numbers.mpr hmem)
    | _ => rfl

end JsonValue

end Db8
