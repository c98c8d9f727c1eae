import Db8.Core.MojJsonParser
import Db8.Core.MojObjectBuilder

/-!
# Core.MojJsonWriter

The JSON text of a value.

* `MojJsonWriter` — the visitor that writes it, comma by comma.
* `jsonText`      — the text by recursion over the value.
* `visit_writer`  — the visitor writes that text.
-/

namespace Db8

open MojJsonParser

/-- `%04X` of a number below 256. -/
def hex4 (n : Nat) : List MojByte := [ch '0', ch '0', hexChar (n / 16), hexChar (n % 16)]
where
  hexChar (n : Nat) : MojByte := Fin.ofNat 256 (if n < 10 then 48 + n else 55 + n)

/-- The text of a character in a string: what `escape` says, or the character itself. -/
def escape (c : MojByte) : List MojByte :=
  if c = 8 then [backslash, ch 'b']
  else if c = 9 then [backslash, ch 't']
  else if c = newline then [backslash, ch 'n']
  else if c = 12 then [backslash, ch 'f']
  else if c = 13 then [backslash, ch 'r']
  else if c.val < 32 then [backslash, ch 'u'] ++ hex4 c.val
  else if c = quote ∨ c = backslash then [backslash, c]
  else [c]

structure MojJsonWriter where
  str : List MojByte
  writeComma : Bool

namespace MojJsonWriter

open MojObject

def append (w : MojJsonWriter) (cs : List MojByte) : MojJsonWriter := { w with str := w.str ++ cs }

/-- `writeComma`: a comma in front of all values but the first. -/
def comma (w : MojJsonWriter) : MojJsonWriter :=
  if w.writeComma then w.append [ch ','] else { w with writeComma := true }

def writeString (val : MojString) : List MojByte := quote :: (val.chars.flatMap escape ++ [quote])

def call (w : MojJsonWriter) : Visit → MojJsonWriter
  | .beginObject => { w.comma.append [ch '{'] with writeComma := false }
  | .endObject => { w.append [ch '}'] with writeComma := true }
  | .beginArray => { w.comma.append [ch '['] with writeComma := false }
  | .endArray => { w.append [ch ']'] with writeComma := true }
  | .propName name => { (w.comma.append (writeString name)).append [ch ':'] with writeComma := false }
  | .nullValue => w.comma.append MojJsonNullString
  | .boolValue val => w.comma.append (if val then MojJsonTrueString else MojJsonFalseString)
  | .intValue val => w.comma.append (intText val)
  | .decimalValue val => w.comma.append val.stringValue
  | .stringValue val => w.comma.append (writeString val)

def visit (w : MojJsonWriter) (vs : List Visit) : MojJsonWriter := vs.foldl call w

end MojJsonWriter

namespace MojObject

open MojJsonWriter

/-- `MojObject::toJson`. -/
def toJson (o : MojObject) : List MojByte := (MojJsonWriter.visit ⟨[], false⟩ o.visit).str

def commaIf (comma : Bool) : List MojByte := if comma then [ch ','] else []

mutual
def jsonText : MojObject → List MojByte
  | .undefined => MojJsonNullString
  | .null => MojJsonNullString
  | .object ps => ch '{' :: (jsonTextProps false ps ++ [ch '}'])
  | .array xs => ch '[' :: (jsonTextVec false xs ++ [ch ']'])
  | .string s => writeString s
  | .bool b => if b then MojJsonTrueString else MojJsonFalseString
  | .decimal d => d.stringValue
  | .int i => intText i

/-- The properties of an object, with a comma in front of the first when some went before. -/
def jsonTextProps (comma : Bool) : List (MojString × MojObject) → List MojByte
  | [] => []
  | (k, a) :: ps => commaIf comma ++ (writeString k ++ ch ':' :: (jsonText a ++ jsonTextProps true ps))

def jsonTextVec (comma : Bool) : List MojObject → List MojByte
  | [] => []
  | a :: xs => commaIf comma ++ (jsonText a ++ jsonTextVec true xs)
end

theorem comma_append (w : MojJsonWriter) (cs : List MojByte) :
    w.comma.append cs = ⟨w.str ++ (commaIf w.writeComma ++ cs), true⟩ := by
  obtain ⟨str, writeComma⟩ := w
  cases writeComma
  · rfl
  · simp [comma, MojJsonWriter.append, commaIf]

/-- The visitor appends the text of `o`. -/
def Writes (o : MojObject) : Prop :=
  ∀ w : MojJsonWriter, w.visit o.visit = ⟨w.str ++ (commaIf w.writeComma ++ o.jsonText), true⟩

theorem visit_append (w : MojJsonWriter) (vs ws : List Visit) :
    w.visit (vs ++ ws) = (w.visit vs).visit ws := List.foldl_append

theorem visit_writeProps {ps : List (MojString × MojObject)} (hps : ∀ p ∈ ps, Writes p.2)
    (str : List MojByte) (comma : Bool) :
    ∃ comma', MojJsonWriter.visit ⟨str, comma⟩ (visitProps ps) =
      ⟨str ++ jsonTextProps comma ps, comma'⟩ := by
  induction ps generalizing str comma with
  | nil => exact ⟨comma, by simp [visitProps, jsonTextProps, MojJsonWriter.visit]⟩
  | cons p ps ih =>
    obtain ⟨k, a⟩ := p
    have hval := hps (k, a) List.mem_cons_self
    obtain ⟨comma', hrest⟩ := ih (fun q hq => hps q (List.mem_cons_of_mem _ hq))
      (str ++ (commaIf comma ++ (writeString k ++ [ch ':'])) ++ jsonText a) true
    refine ⟨comma', ?_⟩
    have hname : MojJsonWriter.visit ⟨str, comma⟩ (.propName k :: (a.visit ++ visitProps ps)) =
        MojJsonWriter.visit ⟨str ++ (commaIf comma ++ (writeString k ++ [ch ':'])), false⟩
          (a.visit ++ visitProps ps) := by
      change MojJsonWriter.visit (MojJsonWriter.call ⟨str, comma⟩ (.propName k)) _ = _
      rw [call, comma_append]
      simp [MojJsonWriter.append]
    rw [visitProps, hname, visit_append, hval]
    change MojJsonWriter.visit ⟨_ ++ ([] ++ a.jsonText), true⟩ _ = _
    rw [List.nil_append, hrest, jsonTextProps]
    simp

theorem visit_writeVec {xs : List MojObject} (hxs : ∀ x ∈ xs, Writes x) (str : List MojByte)
    (comma : Bool) :
    ∃ comma', MojJsonWriter.visit ⟨str, comma⟩ (visitVec xs) = ⟨str ++ jsonTextVec comma xs, comma'⟩ := by
  induction xs generalizing str comma with
  | nil => exact ⟨comma, by simp [visitVec, jsonTextVec, MojJsonWriter.visit]⟩
  | cons x xs ih =>
    obtain ⟨comma', hrest⟩ := ih (fun y hy => hxs y (List.mem_cons_of_mem _ hy))
      (str ++ (commaIf comma ++ x.jsonText)) true
    refine ⟨comma', ?_⟩
    rw [visitVec, visit_append, hxs x List.mem_cons_self, hrest, jsonTextVec]
    simp

theorem writes (o : MojObject) : Writes o := by
  induction o using inductionOn with
  | object ps ih =>
    intro w
    have hbegin : w.call .beginObject = ⟨w.str ++ (commaIf w.writeComma ++ [ch '{']), false⟩ := by
      rw [call, comma_append]
    obtain ⟨comma', hprops⟩ := visit_writeProps ih (w.str ++ (commaIf w.writeComma ++ [ch '{'])) false
    change (w.call .beginObject).visit (visitProps ps ++ [.endObject]) = _
    rw [hbegin, visit_append, hprops]
    simp [MojJsonWriter.visit, call, MojJsonWriter.append, jsonText]
  | array xs ih =>
    intro w
    have hbegin : w.call .beginArray = ⟨w.str ++ (commaIf w.writeComma ++ [ch '[']), false⟩ := by
      rw [call, comma_append]
    obtain ⟨comma', hvec⟩ := visit_writeVec ih (w.str ++ (commaIf w.writeComma ++ [ch '['])) false
    change (w.call .beginArray).visit (visitVec xs ++ [.endArray]) = _
    rw [hbegin, visit_append, hvec]
    simp [MojJsonWriter.visit, call, MojJsonWriter.append, jsonText]
  | undefined =>
    intro w
    exact comma_append w _
  | null =>
    intro w
    exact comma_append w _
  | string s =>
    intro w
    exact comma_append w _
  | bool b =>
    intro w
    exact comma_append w _
  | decimal d =>
    intro w
    exact comma_append w _
  | int i =>
    intro w
    exact comma_append w _

theorem toJson_eq (o : MojObject) : o.toJson = o.jsonText := by
  rw [toJson, writes o]
  rfl

/-! ## The text has no zero byte -/

theorem zero_notMem_escape (c : MojByte) : 0 ∉ escape c := by
  revert c
  decide +kernel

theorem zero_notMem_writeString (s : MojString) : 0 ∉ writeString s := by
  intro h
  simp only [writeString, List.mem_cons, List.mem_append, List.mem_flatMap, List.not_mem_nil, or_false] at h
  obtain h | ⟨c, -, h⟩ | h := h
  · revert h
    decide
  · exact zero_notMem_escape c h
  · revert h
    decide

theorem zero_notMem_commaIf (comma : Bool) : 0 ∉ commaIf comma := by
  revert comma
  decide

theorem zero_notMem_of_isNumeral {cs : List MojByte} (h : ∀ c ∈ cs, IsNumeral c) : 0 ∉ cs := by
  intro hmem
  exact absurd (h 0 hmem).1 (by decide)

theorem zero_notMem_jsonText (o : MojObject) : 0 ∉ o.jsonText := by
  induction o using inductionOn with
  | undefined => decide
  | null => decide
  | object ps ih =>
    have hprops : ∀ (qs : List (MojString × MojObject)) (comma : Bool), (∀ q ∈ qs, q ∈ ps) →
        0 ∉ jsonTextProps comma qs := by
      intro qs
      induction qs with
      | nil => simp [jsonTextProps]
      | cons q qs ihqs =>
        intro comma hmem
        obtain ⟨k, a⟩ := q
        have hcolon : (0 : MojByte) ≠ ch ':' := by decide
        simp only [jsonTextProps, List.mem_append, List.mem_cons, not_or]
        exact ⟨zero_notMem_commaIf comma, zero_notMem_writeString k, hcolon, ih (k, a) (hmem _ List.mem_cons_self),
          ihqs true fun q hq => hmem q (List.mem_cons_of_mem _ hq)⟩
    have hopen : (0 : MojByte) ≠ ch '{' := by decide
    have hclose : (0 : MojByte) ≠ ch '}' := by decide
    simp only [jsonText, List.mem_cons, List.mem_append, List.not_mem_nil, or_false, not_or]
    exact ⟨hopen, hprops ps false fun _ hq => hq, hclose⟩
  | array xs ih =>
    have hvec : ∀ (ys : List MojObject) (comma : Bool), (∀ y ∈ ys, y ∈ xs) → 0 ∉ jsonTextVec comma ys := by
      intro ys
      induction ys with
      | nil => simp [jsonTextVec]
      | cons y ys ihys =>
        intro comma hmem
        simp only [jsonTextVec, List.mem_append, not_or]
        exact ⟨zero_notMem_commaIf comma, ih y (hmem y List.mem_cons_self),
          ihys true fun z hz => hmem z (List.mem_cons_of_mem _ hz)⟩
    have hopen : (0 : MojByte) ≠ ch '[' := by decide
    have hclose : (0 : MojByte) ≠ ch ']' := by decide
    simp only [jsonText, List.mem_cons, List.mem_append, List.not_mem_nil, or_false, not_or]
    exact ⟨hopen, hvec xs false fun _ hy => hy, hclose⟩
  | string s => exact zero_notMem_writeString s
  | bool b => cases b <;> decide
  | decimal d => exact zero_notMem_of_isNumeral d.isNumeral_stringValue
  | int i => exact zero_notMem_of_isNumeral (isNumeral_intText i)

theorem zero_notMem_toJson (o : MojObject) : 0 ∉ o.toJson := toJson_eq o ▸ zero_notMem_jsonText o

/-- `MojObject::stringValue`: a string itself, of any other value its JSON text. -/
def stringValue : MojObject → MojString
  | .string s => s
  | o => ⟨o.toJson, zero_notMem_toJson o⟩

end MojObject

end Db8
