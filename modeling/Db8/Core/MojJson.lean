import Db8.Core.MojJsonWriter

/-!
# Core.MojJson

The parser reads the text the writer makes.

* `fromJson`         — parsing into a builder.
* `Eats p cs vs q`   — the characters `cs` lead from `p` to `q` and make the calls `vs`, for every
  visitor and whatever follows.
* `readsValue`       — the text of a value is read as its events, wherever a value may stand.
* `noLeast_of_fromJson` — no text is read as a value with the least decimal in it.
* `fromJson_toJson`  — reading back gives the value exactly when no part of it is `undefined` or the
  least decimal.
-/

namespace Db8

open Lib MojJsonParser MojObject

namespace MojString

theorem ofChars_nul_free (chars : List MojByte) : 0 ∉ chars.takeWhile (· ≠ 0) := by
  intro h
  have := List.mem_takeWhile_imp h
  simp at this

/-- The bytes up to the first zero byte, as the C functions see them. -/
def ofChars (chars : List MojByte) : MojString := ⟨chars.takeWhile (· ≠ 0), ofChars_nul_free chars⟩

end MojString

namespace JsonVisit

def toVisit : JsonVisit → Visit
  | .beginObject => .beginObject
  | .endObject => .endObject
  | .beginArray => .beginArray
  | .endArray => .endArray
  | .propName name => .propName (MojString.ofChars name)
  | .nullValue => .nullValue
  | .boolValue val => .boolValue val
  | .intValue val => .intValue val
  | .decimalValue val => .decimalValue val
  | .stringValue val => .stringValue (MojString.ofChars val)

/-- The call that hands over an event. -/
def ofVisit : Visit → JsonVisit
  | .beginObject => .beginObject
  | .endObject => .endObject
  | .beginArray => .beginArray
  | .endArray => .endArray
  | .propName name => .propName name.chars
  | .nullValue => .nullValue
  | .boolValue val => .boolValue val
  | .intValue val => .intValue val
  | .decimalValue val => .decimalValue val
  | .stringValue val => .stringValue val.chars

theorem ofChars_chars (s : MojString) : MojString.ofChars s.chars = s := by
  obtain ⟨chars, hnul⟩ := s
  have htake : chars.takeWhile (· ≠ 0) = chars := by
    rw [List.takeWhile_eq_self_iff]
    intro c hc
    refine decide_eq_true ?_
    rintro rfl
    exact hnul hc
  simp only [MojString.ofChars, htake]

theorem toVisit_ofVisit (v : Visit) : (ofVisit v).toVisit = v := by
  cases v with
  | propName name => exact congrArg Visit.propName (ofChars_chars name)
  | stringValue val => exact congrArg Visit.stringValue (ofChars_chars val)
  | _ => rfl

end JsonVisit

open JsonVisit

/-- A builder as the visitor of a parser. -/
def builderVisitor (v : JsonVisit) : Visiting MojObjectBuilder Unit := fun b => (.ok (), b.call v.toVisit)

/-- `MojObject::fromJson`. -/
def MojObject.fromJson (chars : List MojByte) : Except MojErr MojObject :=
  match parse builderVisitor chars MojObjectBuilder.init with
  | (.ok _, b) => .ok b.obj
  | (.error e, _) => .error e

namespace MojObject

mutual
/-- How deep the innermost value lies. -/
def nesting : MojObject → Nat
  | .object ps => nestingProps ps
  | .array xs => nestingVec xs
  | _ => 0

def nestingProps : List (MojString × MojObject) → Nat
  | [] => 0
  | (_, a) :: ps => max (nesting a + 1) (nestingProps ps)

def nestingVec : List MojObject → Nat
  | [] => 0
  | a :: xs => max (nesting a + 1) (nestingVec xs)
end

mutual
/-- No part of the value is the least decimal. -/
def noLeast : MojObject → Bool
  | .object ps => noLeastProps ps
  | .array xs => noLeastVec xs
  | .decimal d => d ≠ MojDecimal.least
  | _ => true

def noLeastProps : List (MojString × MojObject) → Bool
  | [] => true
  | (_, a) :: ps => noLeast a && noLeastProps ps

def noLeastVec : List MojObject → Bool
  | [] => true
  | a :: xs => noLeast a && noLeastVec xs
end

theorem noLeastProps_iff {ps : List (MojString × MojObject)} :
    noLeastProps ps = true ↔ ∀ p ∈ ps, p.2.noLeast = true := by
  induction ps with
  | nil => simp [noLeastProps]
  | cons p ps ih => simp [noLeastProps, ih]

theorem noLeastVec_iff {xs : List MojObject} :
    noLeastVec xs = true ↔ ∀ x ∈ xs, x.noLeast = true := by
  induction xs with
  | nil => simp [noLeastVec]
  | cons x xs ih => simp [noLeastVec, ih]

end MojObject

namespace MojJsonParser

variable {τ : Type}

/-- The calls `vs`, one after the other. -/
def calls (visitor : JsonVisit → Visiting τ Unit) : List JsonVisit → Visiting τ Unit
  | [] => pure ()
  | v :: vs => do
    visitor v
    calls visitor vs

theorem calls_append (visitor : JsonVisit → Visiting τ Unit) (vs ws : List JsonVisit) :
    calls visitor (vs ++ ws) = (do calls visitor vs; calls visitor ws) := by
  induction vs with
  | nil => simp [calls]
  | cons v vs ih => simp [calls, ih]

def Eats (p : MojJsonParser) (cs : List MojByte) (vs : List JsonVisit) (q : MojJsonParser) : Prop :=
  ∀ (τ : Type) (visitor : JsonVisit → Visiting τ Unit) (rest : List MojByte),
    parseChunk visitor p (cs ++ rest) = (do calls visitor vs; parseChunk visitor q rest)

theorem Eats.refl (p : MojJsonParser) : Eats p [] [] p := by
  intro τ visitor rest
  simp [calls]

theorem Eats.trans {p q r : MojJsonParser} {as bs : List MojByte} {vs ws : List JsonVisit}
    (h : Eats p as vs q) (h' : Eats q bs ws r) : Eats p (as ++ bs) (vs ++ ws) r := by
  intro τ visitor rest
  rw [List.append_assoc, h, calls_append, bind_assoc]
  congr 1
  funext _
  exact h' τ visitor rest

/-- A character that is taken at once. -/
theorem Eats.of_consumed {p q : MojJsonParser} {c : MojByte} {vs : List JsonVisit} (hc : c ≠ newline)
    (h : ∀ (τ : Type) (visitor : JsonVisit → Visiting τ Unit),
      redo visitor p c = (do calls visitor vs; pure (.consumed q))) :
    Eats p [c] vs { q with col := q.col + 1 } := by
  intro τ visitor rest
  have hline : p.countLine c = p := if_neg hc
  rw [List.singleton_append, parseChunk_cons, hline, h, bind_assoc]
  simp

/-- A character that only changes the state it is looked at in. -/
theorem Eats.of_redo_eq {p q r : MojJsonParser} {c : MojByte} {cs : List MojByte} {vs : List JsonVisit}
    (hc : c ≠ newline)
    (h : ∀ (τ : Type) (visitor : JsonVisit → Visiting τ Unit), redo visitor p c = redo visitor q c)
    (he : Eats q (c :: cs) vs r) : Eats p (c :: cs) vs r := by
  intro τ visitor rest
  have hp : p.countLine c = p := if_neg hc
  have hq : q.countLine c = q := if_neg hc
  rw [← he τ visitor rest, List.cons_append, parseChunk_cons, parseChunk_cons, hp, hq, h]

theorem redo_goto_saved {visitor : JsonVisit → Visiting τ Unit} {p : MojJsonParser}
    (h : p.top.state = .stateEatWhitespace) {c : MojByte} (hs : isSpace c = false) (hc : c ≠ ch '/') :
    redo visitor p c = redo visitor (p.goto p.top.savedState) c := by
  rw [redo_eatWhitespace visitor h, hs, if_neg Bool.false_ne_true, if_neg hc]

/-! ## Strings -/

/-- The parser is in a string or a property name and has read `str` of it. -/
structure InString (p : MojJsonParser) (s : MojJsonState) (str : List MojByte)
    (below : List MojJsonStackRec) : Prop where
  state_eq : p.top.state = s
  str_eq : p.str = str
  below_eq : p.below = below
  isString : s = .stateString ∨ s = .stateObjField

theorem redo_inString {p : MojJsonParser} {s : MojJsonState} {str : List MojByte}
    {below : List MojJsonStackRec} (h : p.InString s str below) {c : MojByte} (hq : c ≠ quote)
    (visitor : JsonVisit → Visiting τ Unit) :
    ∃ hs, redo visitor p c =
      if c = backslash then pure (.consumed (p.goSaving .stateStringEscape s hs))
      else pure (.consumed (p.append [c])) := by
  rcases h.isString with rfl | rfl
  · exact ⟨string_ne, by rw [redo_string visitor h.state_eq, if_neg hq]⟩
  · exact ⟨objField_ne, by rw [redo_objField visitor h.state_eq, if_neg hq]⟩

theorem eats_plain {p : MojJsonParser} {s : MojJsonState} {str : List MojByte}
    {below : List MojJsonStackRec} (h : p.InString s str below) {c : MojByte} (hq : c ≠ quote)
    (hb : c ≠ backslash) (hn : c ≠ newline) :
    ∃ q, Eats p [c] [] q ∧ q.InString s (str ++ [c]) below := by
  refine ⟨_, .of_consumed (q := p.append [c]) hn fun τ visitor => ?_, h.state_eq,
    congrArg (· ++ [c]) h.str_eq, h.below_eq, h.isString⟩
  obtain ⟨hs, hredo⟩ := redo_inString h hq visitor
  rw [hredo, if_neg hb]
  rfl

/-- Behind a backslash. -/
theorem eats_backslash {p : MojJsonParser} {s : MojJsonState} {str : List MojByte}
    {below : List MojJsonStackRec} (h : p.InString s str below) :
    ∃ q, Eats p [backslash] [] q ∧ q.top.state = .stateStringEscape ∧ q.top.savedState = s ∧
      q.str = str ∧ q.below = below := by
  obtain ⟨hs, -⟩ := redo_inString h (show backslash ≠ quote by decide) fun _ => (pure () : Visiting Unit Unit)
  refine ⟨_, .of_consumed (q := p.goSaving .stateStringEscape s hs) (by decide) fun τ visitor => ?_, rfl, rfl,
    h.str_eq, h.below_eq⟩
  obtain ⟨hs', hredo⟩ := redo_inString h (show backslash ≠ quote by decide) visitor
  rw [hredo, if_pos rfl]
  rfl

theorem eats_escapeChar {p : MojJsonParser} {s : MojJsonState} {str : List MojByte}
    {below : List MojJsonStackRec} (h : p.InString s str below) {c e : MojByte} (he : escapeChar e = some c)
    (hu : e ≠ ch 'u') (hn : e ≠ newline) :
    ∃ q, Eats p [backslash, e] [] q ∧ q.InString s (str ++ [c]) below := by
  obtain ⟨q, hq, hstate, hsaved, hstr, hbelow⟩ := eats_backslash h
  have hredo : ∀ (τ : Type) (visitor : JsonVisit → Visiting τ Unit),
      redo visitor q e = pure (.consumed ((q.append [c]).goto q.top.savedState)) := by
    intro τ visitor
    rw [redo_stringEscape visitor hstate, stringEscapeChar, if_neg hu, he]
  refine ⟨_, hq.trans (.of_consumed hn hredo), hsaved, ?_, hbelow, h.isString⟩
  rw [← hstr]
  rfl

theorem hexDigit_hexChar {n : Nat} (h : n < 16) :
    isHexDigit (hex4.hexChar n) = true ∧ hexDigit (hex4.hexChar n) = n := by
  have hall : ∀ m : Fin 16, isHexDigit (hex4.hexChar m) = true ∧ hexDigit (hex4.hexChar m) = m := by decide
  exact hall ⟨n, h⟩

theorem hexDigit_ne_newline {c : MojByte} (h : isHexDigit c = true) : c ≠ newline := by
  rintro rfl
  exact absurd h (by decide)

/-- A digit of `\u`, but for the last. -/
theorem eats_hex {p : MojJsonParser} (h : p.top.state = .stateEscapeUnicode) {c : MojByte}
    (hc : isHexDigit c = true) (hpos : p.strPos < 3) :
    ∃ q, Eats p [c] [] q ∧ q.top = p.top ∧ q.str = p.str ∧ q.below = p.below ∧
      q.strPos = p.strPos + 1 ∧ q.ucsChar = p.ucsChar + hexDigit c * 2 ^ ((3 - p.strPos) * 4) := by
  refine ⟨_, .of_consumed
    (q := { p with ucsChar := p.ucsChar + hexDigit c * 2 ^ ((3 - p.strPos) * 4), strPos := p.strPos + 1 })
    (hexDigit_ne_newline hc) fun τ visitor => ?_, rfl, rfl, rfl, rfl, rfl⟩
  rw [redo_escapeUnicode visitor h, escapeUnicodeChar, if_pos ⟨hc, by omega⟩]
  simp only
  rw [if_neg (by omega)]
  rfl

/-- The last digit, from which the code unit is known. -/
theorem redo_lastHex {p : MojJsonParser} (h : p.top.state = .stateEscapeUnicode) {c : MojByte}
    (hc : isHexDigit c = true) (hpos : p.strPos = 3) (visitor : JsonVisit → Visiting τ Unit) :
    redo visitor p c =
      if p.ucsChar + hexDigit c = 0 then throw .jsonParseEscape
      else pure (.consumed ((({ p with ucsChar := p.ucsChar + hexDigit c, strPos := 4 } : MojJsonParser).append
        (utfOut (p.ucsChar + hexDigit c))).goto p.top.savedState)) := by
  rw [redo_escapeUnicode visitor h, escapeUnicodeChar, if_pos ⟨hc, by omega⟩, hpos]
  simp only [Nat.sub_self, zero_mul, pow_zero, mul_one, Nat.reduceAdd, if_true]

/-- Behind `\u`. -/
theorem eats_u {p : MojJsonParser} {s : MojJsonState} {str : List MojByte}
    {below : List MojJsonStackRec} (h : p.InString s str below) :
    ∃ q, Eats p [backslash, ch 'u'] [] q ∧ q.top.state = .stateEscapeUnicode ∧ q.top.savedState = s ∧
      q.str = str ∧ q.below = below ∧ q.strPos = 0 ∧ q.ucsChar = 0 := by
  obtain ⟨q, hq, hstate, hsaved, hstr, hbelow⟩ := eats_backslash h
  refine ⟨_, hq.trans (.of_consumed
    (q := { q.goto .stateEscapeUnicode with ucsChar := 0, strPos := 0 }) (by decide) fun τ visitor => ?_),
    rfl, hsaved, hstr, hbelow, rfl, rfl⟩
  rw [redo_stringEscape visitor hstate, stringEscapeChar, if_pos rfl]
  rfl

/-- Behind `\u` and three digits. -/
theorem eats_threeHex {p : MojJsonParser} {s : MojJsonState} {str : List MojByte}
    {below : List MojJsonStackRec} (h : p.InString s str below) {c₀ c₁ c₂ : MojByte}
    (h₀ : isHexDigit c₀ = true) (h₁ : isHexDigit c₁ = true) (h₂ : isHexDigit c₂ = true) :
    ∃ q, Eats p [backslash, ch 'u', c₀, c₁, c₂] [] q ∧ q.top.state = .stateEscapeUnicode ∧ q.top.savedState = s ∧
      q.str = str ∧ q.below = below ∧ q.strPos = 3 ∧
      q.ucsChar = hexDigit c₀ * 4096 + hexDigit c₁ * 256 + hexDigit c₂ * 16 := by
  obtain ⟨q₀, hq₀, hstate₀, hsaved₀, hstr₀, hbelow₀, hpos₀, hucs₀⟩ := eats_u h
  obtain ⟨q₁, hq₁, htop₁, hstr₁, hbelow₁, hpos₁, hucs₁⟩ := eats_hex hstate₀ h₀ (by omega)
  obtain ⟨q₂, hq₂, htop₂, hstr₂, hbelow₂, hpos₂, hucs₂⟩ :=
    eats_hex (by rw [htop₁, hstate₀]) h₁ (by omega)
  obtain ⟨q₃, hq₃, htop₃, hstr₃, hbelow₃, hpos₃, hucs₃⟩ :=
    eats_hex (by rw [htop₂, htop₁, hstate₀]) h₂ (by omega)
  refine ⟨q₃, hq₀.trans (hq₁.trans (hq₂.trans hq₃)), ?_, ?_, ?_, ?_, ?_, ?_⟩
  · rw [htop₃, htop₂, htop₁, hstate₀]
  · rw [htop₃, htop₂, htop₁, hsaved₀]
  · rw [hstr₃, hstr₂, hstr₁, hstr₀]
  · rw [hbelow₃, hbelow₂, hbelow₁, hbelow₀]
  · rw [hpos₃, hpos₂, hpos₁, hpos₀]
  · rw [hucs₃, hucs₂, hucs₁, hucs₀, hpos₂, hpos₁, hpos₀]
    omega

/-- A code unit as four hex digits. -/
theorem eats_codeUnit {p : MojJsonParser} {s : MojJsonState} {str : List MojByte}
    {below : List MojJsonStackRec} (h : p.InString s str below) {c₀ c₁ c₂ c₃ : MojByte}
    (h₀ : isHexDigit c₀ = true) (h₁ : isHexDigit c₁ = true) (h₂ : isHexDigit c₂ = true)
    (h₃ : isHexDigit c₃ = true) {n : Nat}
    (hn : hexDigit c₀ * 4096 + hexDigit c₁ * 256 + hexDigit c₂ * 16 + hexDigit c₃ = n) (hne : n ≠ 0) :
    ∃ q, Eats p [backslash, ch 'u', c₀, c₁, c₂, c₃] [] q ∧ q.InString s (str ++ utfOut n) below := by
  obtain ⟨q, hq, hstate, hsaved, hstr, hbelow, hpos, hucs⟩ := eats_threeHex h h₀ h₁ h₂
  have hvalue : q.ucsChar + hexDigit c₃ = n := by rw [hucs, hn]
  have hlast : Eats q [c₃] [] _ := .of_consumed
    (q := (({ q with ucsChar := n, strPos := 4 } : MojJsonParser).append (utfOut n)).goto q.top.savedState)
    (hexDigit_ne_newline h₃) fun τ visitor => by
      rw [redo_lastHex hstate h₃ hpos visitor, hvalue, if_neg hne]
      rfl
  refine ⟨_, hq.trans hlast, hsaved, ?_, hbelow, h.isString⟩
  rw [← hstr]
  rfl

/-- A control character as four hex digits. -/
theorem eats_hex4 {p : MojJsonParser} {s : MojJsonState} {str : List MojByte}
    {below : List MojJsonStackRec} (h : p.InString s str below) {c : MojByte} (hc : c.val < 32)
    (h0 : c ≠ 0) :
    ∃ q, Eats p ([backslash, ch 'u'] ++ hex4 c.val) [] q ∧ q.InString s (str ++ [c]) below := by
  obtain ⟨hzero, hzeroVal⟩ := hexDigit_hexChar (show 0 < 16 by decide)
  obtain ⟨hhigh, hhighVal⟩ := hexDigit_hexChar (show c.val / 16 < 16 by omega)
  obtain ⟨hlow, hlowVal⟩ := hexDigit_hexChar (show c.val % 16 < 16 by omega)
  have hutf : utfOut c.val = [c] := by
    rw [utfOut, if_pos (by omega)]
    simp
  rw [← hutf]
  refine eats_codeUnit h hzero hzero hhigh hlow ?_ fun he => h0 (Fin.ext he)
  rw [hzeroVal, hhighVal, hlowVal]
  omega

/-- The text of a character is read as that character. -/
theorem eats_escape {p : MojJsonParser} {s : MojJsonState} {str : List MojByte}
    {below : List MojJsonStackRec} (h : p.InString s str below) {c : MojByte} (h0 : c ≠ 0) :
    ∃ q, Eats p (escape c) [] q ∧ q.InString s (str ++ [c]) below := by
  unfold escape
  split_ifs with hb ht hn hf hr hlt hquote
  · exact eats_escapeChar h (by rw [hb]; decide) (by decide) (by decide)
  · exact eats_escapeChar h (by rw [ht]; decide) (by decide) (by decide)
  · exact eats_escapeChar h (by rw [hn]; decide) (by decide) (by decide)
  · exact eats_escapeChar h (by rw [hf]; decide) (by decide) (by decide)
  · exact eats_escapeChar h (by rw [hr]; decide) (by decide) (by decide)
  · exact eats_hex4 h hlt h0
  · rcases hquote with rfl | rfl
    · exact eats_escapeChar h (by decide) (by decide) (by decide)
    · exact eats_escapeChar h (by decide) (by decide) (by decide)
  · exact eats_plain h (fun he => hquote (.inl he)) (fun he => hquote (.inr he)) hn

theorem eats_escapes {p : MojJsonParser} {s : MojJsonState} {str : List MojByte}
    {below : List MojJsonStackRec} (h : p.InString s str below) {cs : List MojByte} (h0 : 0 ∉ cs) :
    ∃ q, Eats p (cs.flatMap escape) [] q ∧ q.InString s (str ++ cs) below := by
  induction cs generalizing p str with
  | nil => exact ⟨p, .refl p, by rwa [List.append_nil]⟩
  | cons c cs ih =>
    rw [List.mem_cons, not_or] at h0
    obtain ⟨q, hq, hin⟩ := eats_escape h (Ne.symm h0.1)
    obtain ⟨r, hr, hout⟩ := ih hin h0.2
    refine ⟨r, hq.trans hr, ?_⟩
    rw [List.append_assoc, List.singleton_append] at hout
    exact hout

/-! ## Values -/

/-- The parser stands behind a value, in front of white space. -/
structure Finished (p : MojJsonParser) (below : List MojJsonStackRec) : Prop where
  state_eq : p.top.state = .stateEatWhitespace
  savedState_eq : p.top.savedState = .stateFinish
  below_eq : p.below = below

/-- The parser stands behind a value; the calls `vs` are still to be made, when a character comes that
does not belong to a number. -/
def After (p : MojJsonParser) (vs : List JsonVisit) (below : List MojJsonStackRec) : Prop :=
  ∃ q : MojJsonParser, q.Finished below ∧
    ∀ (τ : Type) (visitor : JsonVisit → Visiting τ Unit) (c : MojByte), isNumberChar c = false →
      redo visitor p c = (do calls visitor vs; redo visitor q c)

theorem Finished.after {p : MojJsonParser} {below : List MojJsonStackRec} (h : p.Finished below) :
    p.After [] below := by
  refine ⟨p, h, fun τ visitor c _ => ?_⟩
  simp [calls]

/-- The parser is where a value may begin. -/
structure AtStart (p : MojJsonParser) (below : List MojJsonStackRec) : Prop where
  top_eq : p.top = startRec
  below_eq : p.below = below

theorem AtStart.redo {p : MojJsonParser} {below : List MojJsonStackRec} (h : p.AtStart below)
    (visitor : JsonVisit → Visiting τ Unit) {c : MojByte} (hs : isSpace c = false) (hc : c ≠ ch '/') :
    redo visitor p c = startChar visitor (p.goto .stateStart) c := by
  have hstate : p.top.state = .stateEatWhitespace := by rw [h.top_eq]; rfl
  have hsaved : p.top.savedState = .stateStart := by rw [h.top_eq]; rfl
  rw [redo_goto_saved hstate hs hc, hsaved, redo_start visitor rfl]

/-- The text of a value, wherever a value may begin, is read as its events; those of `ws` are made
with the next character. -/
def ReadsAs (text : List MojByte) (events : List JsonVisit) (nesting : Nat) : Prop :=
  ∀ (p : MojJsonParser) (below : List MojJsonStackRec), p.AtStart below →
    below.length + nesting < MaxDepth →
    ∃ q vs ws, Eats p text vs q ∧ q.After ws below ∧ vs ++ ws = events

theorem ReadsAs.of_finished {text : List MojByte} {events : List JsonVisit} {nesting : Nat}
    (h : ∀ (p : MojJsonParser) (below : List MojJsonStackRec), p.AtStart below →
      below.length + nesting < MaxDepth → ∃ q, Eats p text events q ∧ q.Finished below) :
    ReadsAs text events nesting := by
  intro p below hp hdepth
  obtain ⟨q, hq, hfin⟩ := h p below hp hdepth
  exact ⟨q, events, [], hq, hfin.after, List.append_nil _⟩

/-! ### Keywords -/

/-- The state `s` matches the characters of `word` one by one and then makes the call `v`. -/
def Matches (s : MojJsonState) (matchTrue : Bool) (word : List MojByte) (v : JsonVisit) : Prop :=
  ∀ (p : MojJsonParser) (τ : Type) (visitor : JsonVisit → Visiting τ Unit) (c : MojByte),
    p.top.state = s → p.matchTrue = matchTrue → word[p.strPos]? = some c →
    redo visitor p c =
      if p.strPos + 1 = word.length then do
        visitor v
        pure (.consumed (({ p with strPos := p.strPos + 1 } : MojJsonParser).eatThen .stateFinish finish_ne))
      else pure (.consumed { p with strPos := p.strPos + 1 })

theorem matches_null (matchTrue : Bool) : Matches .stateNull matchTrue MojJsonNullString .nullValue := by
  intro p τ visitor c hstate _ hc
  rw [redo_null visitor hstate, nullChar, if_neg (not_not.mpr hc)]

theorem matches_bool (b : Bool) :
    Matches .stateBool b (if b then MojJsonTrueString else MojJsonFalseString) (.boolValue b) := by
  intro p τ visitor c hstate hb hc
  subst hb
  rw [redo_bool visitor hstate, boolChar]
  simp only
  rw [if_neg (not_not.mpr hc)]

theorem eats_word {s : MojJsonState} {matchTrue : Bool} {word : List MojByte} {v : JsonVisit}
    (hm : Matches s matchTrue word v) (hn : newline ∉ word) {rest : List MojByte} {p : MojJsonParser}
    (hstate : p.top.state = s) (hmatch : p.matchTrue = matchTrue) (hrest : word.drop p.strPos = rest)
    (hne : rest ≠ []) : ∃ q, Eats p rest [v] q ∧ q.Finished p.below := by
  induction rest generalizing p with
  | nil => exact absurd rfl hne
  | cons c rest ih =>
    have hget : word[p.strPos]? = some c := by
      rw [← List.head?_drop, hrest]
      rfl
    have hc : c ≠ newline := fun he => hn (he ▸ List.mem_of_getElem? hget)
    have htail : word.drop (p.strPos + 1) = rest := by rw [← List.tail_drop, hrest]; rfl
    have hlen := congrArg List.length hrest
    rw [List.length_drop, List.length_cons] at hlen
    cases rest with
    | nil =>
      refine ⟨_, .of_consumed
        (q := ({ p with strPos := p.strPos + 1 } : MojJsonParser).eatThen .stateFinish finish_ne) hc
        fun τ visitor => ?_, rfl, rfl, rfl⟩
      rw [hm p τ visitor c hstate hmatch hget, if_pos (by simp only [List.length_nil] at hlen; omega)]
      simp [calls]
    | cons c' rest =>
      obtain ⟨q, hq, hfin⟩ := ih (p := { p with strPos := p.strPos + 1, col := p.col + 1 }) hstate hmatch
        htail (List.cons_ne_nil _ _)
      have hone : Eats p [c] [] { p with strPos := p.strPos + 1, col := p.col + 1 } := by
        refine .of_consumed (q := { p with strPos := p.strPos + 1 }) hc fun τ visitor => ?_
        rw [hm p τ visitor c hstate hmatch hget,
          if_neg (by simp only [List.length_cons] at hlen; omega)]
        rfl
      exact ⟨q, hone.trans hq, hfin⟩

theorem AtStart.eats_null {p : MojJsonParser} {below : List MojJsonStackRec} (hp : p.AtStart below) :
    ∃ q, Eats p MojJsonNullString [.nullValue] q ∧ q.Finished below := by
  obtain ⟨q, hq, hfin⟩ := eats_word (p := { p.goto .stateNull with strPos := 0 }) (matches_null p.matchTrue)
    (by decide) rfl rfl rfl (show MojJsonNullString ≠ [] by decide)
  refine ⟨q, .of_redo_eq (by decide) (fun τ visitor => ?_) hq, hp.below_eq ▸ hfin⟩
  rw [hp.redo visitor (by decide) (by decide), redo_null visitor rfl]
  rfl

theorem readsAs_null : ReadsAs MojJsonNullString [.nullValue] 0 := .of_finished fun _ _ hp _ => hp.eats_null

theorem AtStart.eats_bool {p : MojJsonParser} {below : List MojJsonStackRec} (hp : p.AtStart below) (b : Bool) :
    ∃ q, Eats p (if b then MojJsonTrueString else MojJsonFalseString) [.boolValue b] q ∧ q.Finished below := by
  obtain ⟨q, hq, hfin⟩ := eats_word (p := { p.goto .stateBool with strPos := 0, matchTrue := b })
    (matches_bool b) (by cases b <;> decide) rfl rfl rfl
    (show (if b then MojJsonTrueString else MojJsonFalseString) ≠ [] by cases b <;> decide)
  cases b
  · refine ⟨q, .of_redo_eq (by decide) (fun τ visitor => ?_) hq, hp.below_eq ▸ hfin⟩
    rw [hp.redo visitor (by decide) (by decide), redo_bool visitor rfl]
    rfl
  · refine ⟨q, .of_redo_eq (by decide) (fun τ visitor => ?_) hq, hp.below_eq ▸ hfin⟩
    rw [hp.redo visitor (by decide) (by decide), redo_bool visitor rfl]
    rfl

theorem readsAs_bool (b : Bool) :
    ReadsAs (if b then MojJsonTrueString else MojJsonFalseString) [.boolValue b] 0 :=
  .of_finished fun _ _ hp _ => hp.eats_bool b

/-! ### Strings and numbers -/

theorem AtStart.openString {p : MojJsonParser} {below : List MojJsonStackRec} (hp : p.AtStart below) :
    ∃ q, Eats p [quote] [] q ∧ q.InString .stateString [] below := by
  refine ⟨_, .of_consumed (q := { p.goto .stateString with str := [] }) (by decide) fun τ visitor => ?_,
    rfl, rfl, hp.below_eq, .inl rfl⟩
  rw [hp.redo visitor (by decide) (by decide)]
  rfl

theorem InString.closeString {p : MojJsonParser} {str : List MojByte} {below : List MojJsonStackRec}
    (h : p.InString .stateString str below) :
    ∃ q, Eats p [quote] [.stringValue str] q ∧ q.Finished below := by
  refine ⟨_, .of_consumed (q := p.eatThen .stateFinish finish_ne) (by decide) fun τ visitor => ?_, rfl, rfl,
    h.below_eq⟩
  rw [redo_string visitor h.state_eq, if_pos rfl, h.str_eq]
  simp [calls]

theorem readsAs_string (val : MojString) :
    ReadsAs (MojJsonWriter.writeString val) [.stringValue val.chars] 0 := by
  refine .of_finished fun p below hp _ => ?_
  obtain ⟨q₁, hopen, hin⟩ := hp.openString
  obtain ⟨q₂, hq, hin⟩ := eats_escapes hin val.nul_free
  obtain ⟨q₃, hclose, hfin⟩ := hin.closeString
  exact ⟨q₃, hopen.trans (hq.trans hclose), hfin⟩

theorem number_ne_newline {c : MojByte} (h : isNumberChar c = true) : c ≠ newline := by
  rintro rfl
  exact absurd h (by decide)

/-- The parser is in a number and has read `str` of it. -/
structure InNumber (p : MojJsonParser) (str : List MojByte) (below : List MojJsonStackRec) : Prop where
  state_eq : p.top.state = .stateNumber
  str_eq : p.str = str
  isDecimal_eq : p.isDecimal = str.any isDecimalChar
  below_eq : p.below = below

theorem numberChar_inNumber {p : MojJsonParser} {str : List MojByte} {below : List MojJsonStackRec}
    (h : p.InNumber str below) (c : MojByte) : (numberChar p c).InNumber (str ++ [c]) below := by
  refine ⟨h.state_eq, congrArg (· ++ [c]) h.str_eq, ?_, h.below_eq⟩
  rw [List.any_append, ← h.isDecimal_eq]
  simp [numberChar]

theorem eats_number {p : MojJsonParser} {str : List MojByte} {below : List MojJsonStackRec}
    (h : p.InNumber str below) {cs : List MojByte} (hcs : ∀ c ∈ cs, isNumberChar c = true) :
    ∃ q, Eats p cs [] q ∧ q.InNumber (str ++ cs) below := by
  induction cs generalizing p str with
  | nil => exact ⟨p, .refl p, by rwa [List.append_nil]⟩
  | cons c cs ih =>
    have hc := hcs c List.mem_cons_self
    have hone : Eats p [c] [] _ := .of_consumed (q := numberChar p c) (number_ne_newline hc) fun τ visitor => by
      rw [redo_number visitor h.state_eq, if_pos hc]
      rfl
    have hin : ({ numberChar p c with col := (numberChar p c).col + 1 } : MojJsonParser).InNumber
        (str ++ [c]) below := ⟨(numberChar_inNumber h c).state_eq, (numberChar_inNumber h c).str_eq,
          (numberChar_inNumber h c).isDecimal_eq, (numberChar_inNumber h c).below_eq⟩
    obtain ⟨q, hq, hout⟩ := ih hin fun d hd => hcs d (List.mem_cons_of_mem _ hd)
    refine ⟨q, hone.trans hq, ?_⟩
    rw [List.append_assoc, List.singleton_append] at hout
    exact hout

/-- What the characters of a number stand for. -/
def NumberIs (str : List MojByte) (v : JsonVisit) : Prop :=
  ∀ (p : MojJsonParser) (below : List MojJsonStackRec), p.InNumber str below →
    ∀ (τ : Type) (visitor : JsonVisit → Visiting τ Unit), numberValue visitor p = visitor v

/-- The characters of a number, up to the last. -/
theorem AtStart.eats_number {p : MojJsonParser} {below : List MojJsonStackRec} (hp : p.AtStart below)
    {c : MojByte} {cs : List MojByte} (hc : (digit? c).isSome = true ∨ c = ch '-')
    (hcs : ∀ d ∈ c :: cs, isNumberChar d = true) :
    ∃ q, Eats p (c :: cs) [] q ∧ q.InNumber (c :: cs) below := by
  have hnum := hcs c List.mem_cons_self
  have hne : ∀ d : MojByte, isNumberChar d = false → c ≠ d := by
    rintro d hd rfl
    rw [hnum] at hd
    cases hd
  have hspace : isSpace c = false := by
    cases hs : isSpace c with
    | false => rfl
    | true =>
      rcases hc with hd | rfl
      · obtain ⟨d, hd⟩ := Option.isSome_iff_exists.mp hd
        simp only [digit?, isSpace, decide_eq_true_eq] at hd hs
        split_ifs at hd
        omega
      · exact absurd hs (by decide)
  let start : MojJsonParser := { p.goto .stateNumber with str := [], isDecimal := false }
  have hfirst : Eats p [c] [] _ := .of_consumed (q := numberChar start c) (number_ne_newline hnum)
    fun τ visitor => by
      rw [hp.redo visitor hspace (hne _ (by decide)), startChar, if_neg (hne _ (by decide)),
        if_neg (hne _ (by decide)), if_neg (hne _ (by decide)), if_neg (hne _ (by decide)),
        if_neg (not_or.mpr ⟨hne _ (by decide), hne _ (by decide)⟩), if_pos hc]
      rfl
  have hstart : start.InNumber [] below := ⟨rfl, rfl, rfl, hp.below_eq⟩
  have hin := numberChar_inNumber hstart c
  obtain ⟨q, hq, hout⟩ := MojJsonParser.eats_number
    (p := { numberChar start c with col := (numberChar start c).col + 1 })
    ⟨hin.state_eq, hin.str_eq, hin.isDecimal_eq, hin.below_eq⟩
    fun d hd => hcs d (List.mem_cons_of_mem _ hd)
  exact ⟨q, hfirst.trans hq, hout⟩

theorem InNumber.after {q : MojJsonParser} {str : List MojByte} {below : List MojJsonStackRec}
    (h : q.InNumber str below) {v : JsonVisit} (hv : NumberIs str v) : q.After [v] below := by
  refine ⟨q.eatThen .stateFinish finish_ne, ⟨rfl, rfl, h.below_eq⟩, ?_⟩
  intro τ visitor d hd
  rw [redo_number visitor h.state_eq, if_neg (by rw [hd]; exact Bool.false_ne_true), hv q below h]
  simp [calls]

theorem readsAs_number {c : MojByte} {cs : List MojByte} {v : JsonVisit}
    (hc : (digit? c).isSome = true ∨ c = ch '-') (hcs : ∀ d ∈ c :: cs, isNumberChar d = true)
    (hv : NumberIs (c :: cs) v) : ReadsAs (c :: cs) [v] 0 := by
  intro p below hp _
  obtain ⟨q, hq, hin⟩ := hp.eats_number hc hcs
  exact ⟨q, [], [v], hq, hin.after hv, rfl⟩

theorem isNumberChar_digitChar {d : Nat} (h : d < 10) : isNumberChar (digitChar d) = true := by
  simp [isNumberChar, digit?_digitChar h]

theorem isDecimalChar_digitChar {d : Nat} (h : d < 10) : isDecimalChar (digitChar d) = false := by
  have hp : digitChar d ≠ ch '.' := digitChar_ne h (by decide)
  have he : digitChar d ≠ ch 'e' := digitChar_ne h (by decide)
  have hE : digitChar d ≠ ch 'E' := digitChar_ne h (by decide)
  simp [isDecimalChar, hp, he, hE]

theorem isNumberChar_map {ds : List Nat} (h : ∀ d ∈ ds, d < 10) :
    ∀ c ∈ ds.map digitChar, isNumberChar c = true := by
  intro c hc
  obtain ⟨d, hd, rfl⟩ := List.mem_map.mp hc
  exact isNumberChar_digitChar (h d hd)

theorem any_isDecimalChar_map {ds : List Nat} (h : ∀ d ∈ ds, d < 10) :
    (ds.map digitChar).any isDecimalChar = false := by
  rw [List.any_eq_false]
  intro c hc
  obtain ⟨d, hd, rfl⟩ := List.mem_map.mp hc
  rw [isDecimalChar_digitChar (h d hd)]
  exact Bool.false_ne_true

/-- A sign, if any, and a digit in front of characters of a number. -/
theorem readsAs_signed {negative : Bool} {d : Nat} {cs : List MojByte} {v : JsonVisit} (hd : d < 10)
    (hcs : ∀ c ∈ cs, isNumberChar c = true)
    (hv : NumberIs ((if negative then [ch '-'] else []) ++ digitChar d :: cs) v) :
    ReadsAs ((if negative then [ch '-'] else []) ++ digitChar d :: cs) [v] 0 := by
  have hdigit := isNumberChar_digitChar hd
  cases negative with
  | true =>
    refine readsAs_number (.inr rfl) ?_ hv
    intro c hc
    rcases List.mem_cons.mp hc with rfl | hc
    · decide
    · rcases List.mem_cons.mp hc with rfl | hc
      · exact hdigit
      · exact hcs c hc
  | false =>
    refine readsAs_number (.inl (by rw [digit?_digitChar hd]; rfl)) ?_ hv
    intro c hc
    rcases List.mem_cons.mp hc with rfl | hc
    · exact hdigit
    · exact hcs c hc

theorem intText_signed (i : Int64) : ∃ (d : Nat) (ds : List Nat), (∀ e ∈ d :: ds, e < 10) ∧
    intText i = (if decide (i < 0) then [ch '-'] else []) ++ digitChar d :: ds.map digitChar := by
  obtain ⟨d, ds, hn, -⟩ := natDigits_cons i.toInt.natAbs
  refine ⟨d, ds, hn ▸ natDigits_lt i.toInt.natAbs, ?_⟩
  rw [intText_eq, hn, List.map_cons]
  by_cases hi : i < 0
  · simp [hi]
  · simp [hi]

theorem stringValue_signed {d : MojDecimal} (hd : d ≠ MojDecimal.least) :
    ∃ (e : Nat) (ds es : List Nat), (∀ x ∈ e :: ds, x < 10) ∧ (∀ x ∈ es, x < 10) ∧
      d.stringValue = (if decide (d.rep < 0) then [ch '-'] else []) ++ digitChar e ::
        (ds.map digitChar ++ ch '.' :: es.map digitChar) := by
  obtain ⟨e, ds, hn⟩ := List.exists_cons_of_ne_nil (MojDecimal.magnitudeDigits_ne_nil d.rep.toInt.natAbs)
  refine ⟨e, ds, _, hn ▸ MojDecimal.magnitudeDigits_lt d.rep.toInt.natAbs,
    MojDecimal.fractionDigits_lt d.rep.toInt.natAbs, ?_⟩
  rw [MojDecimal.stringValue_eq hd, hn, List.map_cons, List.cons_append]
  by_cases hneg : d.rep < 0
  · simp [hneg]
  · simp [hneg]

theorem readsAs_int (i : Int64) : ReadsAs (intText i) [.intValue i] 0 := by
  obtain ⟨d, ds, hlt, htext⟩ := intText_signed i
  have hdecimal : (intText i).any isDecimalChar = false := by
    have hdigits := any_isDecimalChar_map hlt
    rw [htext, List.any_append, ← List.map_cons, hdigits]
    split_ifs
    · rfl
    · rfl
  have hv : NumberIs (intText i) (.intValue i) := by
    intro p below hp τ visitor
    rw [numberValue, hp.isDecimal_eq, hdecimal, if_neg Bool.false_ne_true, hp.str_eq, MojStrToInt64_intText]
    simp
  rw [htext] at hv ⊢
  exact readsAs_signed (hlt d List.mem_cons_self)
    (isNumberChar_map fun e he => hlt e (List.mem_cons_of_mem _ he)) hv

theorem readsAs_decimal {d : MojDecimal} (hd : d ≠ MojDecimal.least) :
    ReadsAs d.stringValue [.decimalValue d] 0 := by
  obtain ⟨e, ds, es, hds, hes, htext⟩ := stringValue_signed hd
  have hdecimal : d.stringValue.any isDecimalChar = true := by
    rw [List.any_eq_true]
    exact ⟨ch '.', by rw [htext]; simp, by decide⟩
  have hv : NumberIs d.stringValue (.decimalValue d) := by
    intro p below hp τ visitor
    rw [numberValue, hp.isDecimal_eq, hdecimal, if_pos rfl, hp.str_eq, MojDecimal.assign_stringValue hd]
  rw [htext] at hv ⊢
  refine readsAs_signed (hds e List.mem_cons_self) ?_ hv
  intro c hc
  rcases List.mem_append.mp hc with hc | hc
  · exact isNumberChar_map (fun x hx => hds x (List.mem_cons_of_mem _ hx)) c hc
  · rcases List.mem_cons.mp hc with rfl | hc
    · decide
    · exact isNumberChar_map hes c hc

/-! ### Containers -/

/-- A character that a value may begin with, as far as the states in front of it are concerned. -/
structure ValueChar (c : MojByte) : Prop where
  not_space : isSpace c = false
  not_slash : c ≠ ch '/'
  not_end : c ≠ ch ']'

theorem ValueChar.ne_newline {c : MojByte} (h : ValueChar c) : c ≠ newline := by
  rintro rfl
  exact absurd h.not_space (by decide)

theorem valueChar_digitChar {d : Nat} (h : d < 10) : ValueChar (digitChar d) :=
  ⟨isSpace_digitChar h, digitChar_ne h (by decide), digitChar_ne h (by decide)⟩

theorem valueChar_signed (negative : Bool) {d : Nat} (hd : d < 10) (cs : List MojByte) :
    ∃ c t, (if negative then [ch '-'] else []) ++ digitChar d :: cs = c :: t ∧ ValueChar c := by
  cases negative with
  | true => exact ⟨_, _, rfl, by decide, by decide, by decide⟩
  | false => exact ⟨_, _, rfl, valueChar_digitChar hd⟩

theorem jsonText_first {o : MojObject} (h : o.noLeast = true) :
    ∃ c t, o.jsonText = c :: t ∧ ValueChar c := by
  cases o with
  | decimal d =>
    obtain ⟨e, ds, es, hds, -, htext⟩ := stringValue_signed (of_decide_eq_true h)
    obtain ⟨c, t, hct, hc⟩ := valueChar_signed (decide (d.rep < 0)) (hds e List.mem_cons_self)
      (ds.map digitChar ++ ch '.' :: es.map digitChar)
    exact ⟨c, t, htext.trans hct, hc⟩
  | int i =>
    obtain ⟨d, ds, hds, htext⟩ := intText_signed i
    obtain ⟨c, t, hct, hc⟩ := valueChar_signed (decide (i < 0)) (hds d List.mem_cons_self)
      (ds.map digitChar)
    exact ⟨c, t, htext.trans hct, hc⟩
  | bool b =>
    cases b
    · exact ⟨_, _, rfl, by decide, by decide, by decide⟩
    · exact ⟨_, _, rfl, by decide, by decide, by decide⟩
  | _ => exact ⟨_, _, rfl, by decide, by decide, by decide⟩

/-- Behind a value, a character that is no part of a number, no white space and no comment is looked
at by the container the value is in. -/
theorem After.pop {p : MojJsonParser} {ws : List JsonVisit} {r : MojJsonStackRec}
    {below : List MojJsonStackRec} (h : p.After ws (r :: below)) :
    ∃ q : MojJsonParser, q.top = r ∧ q.below = below ∧
      ∀ (τ : Type) (visitor : JsonVisit → Visiting τ Unit) (c : MojByte), isNumberChar c = false →
        isSpace c = false → c ≠ ch '/' → redo visitor p c = (do calls visitor ws; redo visitor q c) := by
  obtain ⟨q, hq, hredo⟩ := h
  refine ⟨{ q.goto .stateFinish with top := r, below := below }, rfl, rfl, ?_⟩
  intro τ visitor c hnum hspace hslash
  have hbelow : (q.goto .stateFinish).below = r :: below := hq.below_eq
  rw [hredo τ visitor c hnum, redo_goto_saved hq.state_eq hspace hslash, hq.savedState_eq,
    redo_pop visitor rfl hbelow]

/-- An element or the end of the array may stand here. -/
structure InArray (p : MojJsonParser) (below : List MojJsonStackRec) : Prop where
  state_eq : p.top.state = .stateEatWhitespace
  savedState_eq : p.top.savedState = .stateArray
  below_eq : p.below = below

/-- The first character of an element is looked at one level deeper. -/
theorem InArray.push {p : MojJsonParser} {below : List MojJsonStackRec} (h : p.InArray below)
    {c : MojByte} (hc : ValueChar c) (hn : below.length + 1 < MaxDepth) :
    ∃ r q, r.state = .stateArraySep ∧ q.AtStart (r :: below) ∧
      ∀ (τ : Type) (visitor : JsonVisit → Visiting τ Unit), redo visitor p c = redo visitor q c := by
  have hlen : (p.goto .stateArray).depth = below.length := congrArg List.length h.below_eq
  have hdepth : ¬ (p.goto .stateArray).depth ≥ MaxDepth - 1 := by omega
  refine ⟨((p.goto .stateArray).goto .stateArraySep).top, ((p.goto .stateArray).goto .stateArraySep).pushed, rfl,
    ⟨rfl, congrArg (List.cons _) h.below_eq⟩, fun τ visitor => ?_⟩
  rw [redo_goto_saved h.state_eq hc.not_space hc.not_slash, h.savedState_eq, redo_array visitor rfl,
    if_neg hc.not_end, if_neg hdepth]

theorem InArray.element {p : MojJsonParser} {below : List MojJsonStackRec} (h : p.InArray below)
    {c : MojByte} {t : List MojByte} (hc : ValueChar c) {events : List JsonVisit} {n : Nat}
    (hr : ReadsAs (c :: t) events n) (hn : below.length + (n + 1) < MaxDepth) :
    ∃ r q vs ws, r.state = .stateArraySep ∧ Eats p (c :: t) vs q ∧ q.After ws (r :: below) ∧
      vs ++ ws = events := by
  obtain ⟨r, q, hr', hstart, hredo⟩ := h.push hc (by omega)
  obtain ⟨q', vs, ws, hq, hafter, hev⟩ := hr _ _ hstart (by rw [List.length_cons]; omega)
  exact ⟨r, q', vs, ws, hr', .of_redo_eq hc.ne_newline hredo hq, hafter, hev⟩

theorem InArray.close {p : MojJsonParser} {below : List MojJsonStackRec} (h : p.InArray below) :
    ∃ q, Eats p [ch ']'] [.endArray] q ∧ q.Finished below := by
  refine ⟨_, .of_consumed (q := (p.goto .stateArray).eatThen .stateFinish finish_ne) (by decide)
    fun τ visitor => ?_, rfl, rfl, h.below_eq⟩
  rw [redo_goto_saved h.state_eq (by decide) (by decide), h.savedState_eq, redo_array visitor rfl,
    if_pos rfl]
  simp [calls]

theorem After.closeArray {p : MojJsonParser} {ws : List JsonVisit} {r : MojJsonStackRec}
    {below : List MojJsonStackRec} (h : p.After ws (r :: below)) (hr : r.state = .stateArraySep) :
    ∃ q, Eats p [ch ']'] (ws ++ [.endArray]) q ∧ q.Finished below := by
  obtain ⟨q, rfl, hbelow, hredo⟩ := h.pop
  refine ⟨_, .of_consumed (q := q.eatThen .stateFinish finish_ne) (by decide) fun τ visitor => ?_, rfl,
    rfl, hbelow⟩
  rw [hredo τ visitor _ (by decide) (by decide) (by decide), redo_arraySep visitor hr, if_pos rfl,
    calls_append]
  simp [calls]

theorem After.nextElement {p : MojJsonParser} {ws : List JsonVisit} {r : MojJsonStackRec}
    {below : List MojJsonStackRec} (h : p.After ws (r :: below)) (hr : r.state = .stateArraySep) :
    ∃ q, Eats p [ch ','] ws q ∧ q.InArray below := by
  obtain ⟨q, rfl, hbelow, hredo⟩ := h.pop
  refine ⟨_, .of_consumed (q := q.eatThen .stateArray array_ne) (by decide) fun τ visitor => ?_, rfl,
    rfl, hbelow⟩
  rw [hredo τ visitor _ (by decide) (by decide) (by decide), redo_arraySep visitor hr,
    if_neg (by decide), if_pos rfl]

/-- The text of `o` is read as the events of `o`. -/
def ReadsValue (o : MojObject) : Prop := ReadsAs o.jsonText (o.visit.map ofVisit) o.nesting

/-- The further elements of an array and its end. -/
theorem eats_elements {xs : List MojObject} (hxs : ∀ x ∈ xs, x.noLeast = true ∧ ReadsValue x)
    {p : MojJsonParser} {ws : List JsonVisit} {r : MojJsonStackRec} {below : List MojJsonStackRec}
    (h : p.After ws (r :: below)) (hr : r.state = .stateArraySep)
    (hn : below.length + nestingVec xs < MaxDepth) :
    ∃ q, Eats p (jsonTextVec true xs ++ [ch ']']) (ws ++ ((visitVec xs).map ofVisit ++ [.endArray])) q ∧
      q.Finished below := by
  induction xs generalizing p ws r with
  | nil => exact h.closeArray hr
  | cons x xs ih =>
    obtain ⟨hleast, hvalue⟩ := hxs x List.mem_cons_self
    obtain ⟨c, t, htext, hc⟩ := jsonText_first hleast
    rw [nestingVec] at hn
    obtain ⟨q₁, hq₁, hin⟩ := h.nextElement hr
    rw [ReadsValue, htext] at hvalue
    obtain ⟨r', q₂, vs, ws', hr', hq₂, hafter, hev⟩ := hin.element hc hvalue (by omega)
    obtain ⟨q₃, hq₃, hfin⟩ := ih (fun y hy => hxs y (List.mem_cons_of_mem _ hy)) hafter hr' (by omega)
    refine ⟨q₃, ?_, hfin⟩
    have hall := hq₁.trans (hq₂.trans hq₃)
    rw [← htext] at hall
    simp only [← List.append_assoc vs, hev] at hall
    simpa [jsonTextVec, commaIf, visitVec] using hall

theorem AtStart.openArray {p : MojJsonParser} {below : List MojJsonStackRec} (hp : p.AtStart below) :
    ∃ q, Eats p [ch '['] [.beginArray] q ∧ q.InArray below := by
  refine ⟨_, .of_consumed (q := (p.goto .stateStart).eatThen .stateArray array_ne) (by decide)
    fun τ visitor => ?_, rfl, rfl, hp.below_eq⟩
  rw [hp.redo visitor (by decide) (by decide), startChar, if_neg (by decide), if_pos rfl]
  simp [calls]

theorem readsValue_array {xs : List MojObject} (hxs : ∀ x ∈ xs, x.noLeast = true ∧ ReadsValue x) :
    ReadsValue (.array xs) := by
  refine .of_finished fun p below hp hn => ?_
  obtain ⟨q₁, hq₁, hin⟩ := hp.openArray
  cases xs with
  | nil =>
    obtain ⟨q₂, hq₂, hfin⟩ := hin.close
    exact ⟨q₂, hq₁.trans hq₂, hfin⟩
  | cons x xs =>
    obtain ⟨hleast, hvalue⟩ := hxs x List.mem_cons_self
    obtain ⟨c, t, htext, hc⟩ := jsonText_first hleast
    rw [nesting, nestingVec] at hn
    rw [ReadsValue, htext] at hvalue
    obtain ⟨r, q₂, vs, ws, hr, hq₂, hafter, hev⟩ := hin.element hc hvalue (by omega)
    obtain ⟨q₃, hq₃, hfin⟩ := eats_elements (fun y hy => hxs y (List.mem_cons_of_mem _ hy)) hafter hr
      (by omega)
    refine ⟨q₃, ?_, hfin⟩
    have hall := hq₁.trans (hq₂.trans hq₃)
    rw [← htext] at hall
    simp only [← List.append_assoc vs, hev] at hall
    simpa [jsonText, jsonTextVec, commaIf, MojObject.visit, visitVec, ofVisit] using hall

/-- A property or the end of the object may stand here. -/
structure InObject (p : MojJsonParser) (below : List MojJsonStackRec) : Prop where
  state_eq : p.top.state = .stateEatWhitespace
  savedState_eq : p.top.savedState = .stateObjFieldStart
  below_eq : p.below = below

/-- The record of an object while one of its values is read. -/
def ObjectRec (r : MojJsonStackRec) : Prop := r.state = .stateEatWhitespace ∧ r.savedState = .stateObjSep

theorem InObject.openName {p : MojJsonParser} {below : List MojJsonStackRec} (h : p.InObject below) :
    ∃ q, Eats p [quote] [] q ∧ q.InString .stateObjField [] below := by
  refine ⟨_, .of_consumed (q := { (p.goto .stateObjFieldStart).goto .stateObjField with str := [] }) (by decide)
    fun τ visitor => ?_, rfl, rfl, h.below_eq, .inr rfl⟩
  rw [redo_goto_saved h.state_eq (by decide) (by decide), h.savedState_eq,
    redo_objFieldStart visitor rfl, if_neg (by decide), if_pos rfl]
  rfl

theorem InString.closeName {p : MojJsonParser} {str : List MojByte} {below : List MojJsonStackRec}
    (h : p.InString .stateObjField str below) :
    ∃ q, Eats p [quote] [.propName str] q ∧ q.top.state = .stateEatWhitespace ∧
      q.top.savedState = .stateObjFieldEnd ∧ q.below = below := by
  refine ⟨_, .of_consumed (q := p.eatThen .stateObjFieldEnd objFieldEnd_ne) (by decide) fun τ visitor => ?_, rfl,
    rfl, h.below_eq⟩
  rw [redo_objField visitor h.state_eq, if_pos rfl, h.str_eq]
  simp [calls]

theorem eats_colon {p : MojJsonParser} {below : List MojJsonStackRec} (hstate : p.top.state = .stateEatWhitespace)
    (hsaved : p.top.savedState = .stateObjFieldEnd) (hbelow : p.below = below) :
    ∃ q, Eats p [ch ':'] [] q ∧ q.top.state = .stateEatWhitespace ∧ q.top.savedState = .stateObjValue ∧
      q.below = below := by
  refine ⟨_, .of_consumed (q := (p.goto .stateObjFieldEnd).eatThen .stateObjValue objValue_ne) (by decide)
    fun τ visitor => ?_, rfl, rfl, hbelow⟩
  rw [redo_goto_saved hstate (by decide) (by decide), hsaved, redo_objFieldEnd visitor rfl, if_pos rfl]
  rfl

/-- A name and the colon behind it. -/
theorem InObject.eats_name {p : MojJsonParser} {below : List MojJsonStackRec} (h : p.InObject below)
    (name : MojString) :
    ∃ q, Eats p (MojJsonWriter.writeString name ++ [ch ':']) [.propName name.chars] q ∧
      q.top.state = .stateEatWhitespace ∧ q.top.savedState = .stateObjValue ∧ q.below = below := by
  obtain ⟨q₁, hopen, hin⟩ := h.openName
  obtain ⟨q₂, hq, hin⟩ := eats_escapes hin name.nul_free
  obtain ⟨q₃, hclose, hstate, hsaved, hbelow⟩ := hin.closeName
  obtain ⟨q₄, hcolon, hq₄⟩ := eats_colon hstate hsaved hbelow
  refine ⟨q₄, ?_, hq₄⟩
  have hall := (hopen.trans (hq.trans hclose)).trans hcolon
  simpa [MojJsonWriter.writeString] using hall

/-- The first character of a value is looked at one level deeper. -/
theorem push_objValue {p : MojJsonParser} {below : List MojJsonStackRec}
    (hstate : p.top.state = .stateEatWhitespace) (hsaved : p.top.savedState = .stateObjValue)
    (hbelow : p.below = below) {c : MojByte} (hc : ValueChar c) (hn : below.length + 1 < MaxDepth) :
    ∃ r q, ObjectRec r ∧ q.AtStart (r :: below) ∧
      ∀ (τ : Type) (visitor : JsonVisit → Visiting τ Unit), redo visitor p c = redo visitor q c := by
  have hlen : (p.goto .stateObjValue).depth = below.length := congrArg List.length hbelow
  have hdepth : ¬ (p.goto .stateObjValue).depth ≥ MaxDepth - 1 := by omega
  refine ⟨((p.goto .stateObjValue).eatThen .stateObjSep objSep_ne).top,
    ((p.goto .stateObjValue).eatThen .stateObjSep objSep_ne).pushed, ⟨rfl, rfl⟩,
    ⟨rfl, congrArg (List.cons _) hbelow⟩, fun τ visitor => ?_⟩
  rw [redo_goto_saved hstate hc.not_space hc.not_slash, hsaved, redo_objValue visitor rfl, if_neg hdepth]

theorem InObject.property {p : MojJsonParser} {below : List MojJsonStackRec} (h : p.InObject below)
    (name : MojString) {c : MojByte} {t : List MojByte} (hc : ValueChar c) {events : List JsonVisit}
    {n : Nat} (hr : ReadsAs (c :: t) events n) (hn : below.length + (n + 1) < MaxDepth) :
    ∃ r q vs ws, ObjectRec r ∧
      Eats p (MojJsonWriter.writeString name ++ [ch ':'] ++ c :: t) (.propName name.chars :: vs) q ∧
      q.After ws (r :: below) ∧ vs ++ ws = events := by
  obtain ⟨q₁, hq₁, hstate, hsaved, hbelow⟩ := h.eats_name name
  obtain ⟨r, q, hr', hstart, hredo⟩ := push_objValue hstate hsaved hbelow hc (by omega)
  obtain ⟨q₂, vs, ws, hq₂, hafter, hev⟩ := hr _ _ hstart (by rw [List.length_cons]; omega)
  exact ⟨r, q₂, vs, ws, hr', hq₁.trans (.of_redo_eq hc.ne_newline hredo hq₂), hafter, hev⟩

theorem InObject.close {p : MojJsonParser} {below : List MojJsonStackRec} (h : p.InObject below) :
    ∃ q, Eats p [ch '}'] [.endObject] q ∧ q.Finished below := by
  refine ⟨_, .of_consumed (q := (p.goto .stateObjFieldStart).eatThen .stateFinish finish_ne) (by decide)
    fun τ visitor => ?_, rfl, rfl, h.below_eq⟩
  rw [redo_goto_saved h.state_eq (by decide) (by decide), h.savedState_eq,
    redo_objFieldStart visitor rfl, if_pos rfl]
  simp [calls]

/-- Behind a value of an object. -/
theorem After.popObject {p : MojJsonParser} {ws : List JsonVisit} {r : MojJsonStackRec}
    {below : List MojJsonStackRec} (h : p.After ws (r :: below)) (hr : ObjectRec r) :
    ∃ q : MojJsonParser, q.top.state = .stateObjSep ∧ q.below = below ∧
      ∀ (τ : Type) (visitor : JsonVisit → Visiting τ Unit) (c : MojByte), isNumberChar c = false →
        isSpace c = false → c ≠ ch '/' → redo visitor p c = (do calls visitor ws; redo visitor q c) := by
  obtain ⟨q, rfl, hbelow, hredo⟩ := h.pop
  refine ⟨q.goto .stateObjSep, rfl, hbelow, ?_⟩
  intro τ visitor c hnum hspace hslash
  rw [hredo τ visitor c hnum hspace hslash, redo_goto_saved hr.1 hspace hslash, hr.2]

theorem After.closeObject {p : MojJsonParser} {ws : List JsonVisit} {r : MojJsonStackRec}
    {below : List MojJsonStackRec} (h : p.After ws (r :: below)) (hr : ObjectRec r) :
    ∃ q, Eats p [ch '}'] (ws ++ [.endObject]) q ∧ q.Finished below := by
  obtain ⟨q, hstate, hbelow, hredo⟩ := h.popObject hr
  refine ⟨_, .of_consumed (q := q.eatThen .stateFinish finish_ne) (by decide) fun τ visitor => ?_, rfl,
    rfl, hbelow⟩
  rw [hredo τ visitor _ (by decide) (by decide) (by decide), redo_objSep visitor hstate, if_pos rfl,
    calls_append]
  simp [calls]

theorem After.nextProperty {p : MojJsonParser} {ws : List JsonVisit} {r : MojJsonStackRec}
    {below : List MojJsonStackRec} (h : p.After ws (r :: below)) (hr : ObjectRec r) :
    ∃ q, Eats p [ch ','] ws q ∧ q.InObject below := by
  obtain ⟨q, hstate, hbelow, hredo⟩ := h.popObject hr
  refine ⟨_, .of_consumed (q := q.eatThen .stateObjFieldStart objFieldStart_ne) (by decide)
    fun τ visitor => ?_, rfl, rfl, hbelow⟩
  rw [hredo τ visitor _ (by decide) (by decide) (by decide), redo_objSep visitor hstate,
    if_neg (by decide), if_pos rfl]

/-- The further properties of an object and its end. -/
theorem eats_properties {ps : List (MojString × MojObject)}
    (hps : ∀ x ∈ ps, x.2.noLeast = true ∧ ReadsValue x.2) {p : MojJsonParser} {ws : List JsonVisit}
    {r : MojJsonStackRec} {below : List MojJsonStackRec} (h : p.After ws (r :: below)) (hr : ObjectRec r)
    (hn : below.length + nestingProps ps < MaxDepth) :
    ∃ q, Eats p (jsonTextProps true ps ++ [ch '}']) (ws ++ ((visitProps ps).map ofVisit ++ [.endObject])) q ∧
      q.Finished below := by
  induction ps generalizing p ws r with
  | nil => exact h.closeObject hr
  | cons x ps ih =>
    obtain ⟨k, a⟩ := x
    obtain ⟨hleast, hvalue⟩ : a.noLeast = true ∧ ReadsValue a := hps (k, a) List.mem_cons_self
    obtain ⟨c, t, htext, hc⟩ := jsonText_first hleast
    rw [nestingProps] at hn
    obtain ⟨q₁, hq₁, hin⟩ := h.nextProperty hr
    rw [ReadsValue, htext] at hvalue
    obtain ⟨r', q₂, vs, ws', hr', hq₂, hafter, hev⟩ := hin.property k hc hvalue (by omega)
    obtain ⟨q₃, hq₃, hfin⟩ := ih (fun y hy => hps y (List.mem_cons_of_mem _ hy)) hafter hr' (by omega)
    refine ⟨q₃, ?_, hfin⟩
    have hall := hq₁.trans (hq₂.trans hq₃)
    rw [← htext] at hall
    simpa [jsonTextProps, commaIf, visitProps, ofVisit, ← hev] using hall

theorem AtStart.openObject {p : MojJsonParser} {below : List MojJsonStackRec} (hp : p.AtStart below) :
    ∃ q, Eats p [ch '{'] [.beginObject] q ∧ q.InObject below := by
  refine ⟨_, .of_consumed
    (q := (p.goto .stateStart).eatThen .stateObjFieldStart objFieldStart_ne) (by decide)
    fun τ visitor => ?_, rfl, rfl, hp.below_eq⟩
  rw [hp.redo visitor (by decide) (by decide), startChar, if_pos rfl]
  simp [calls]

theorem readsValue_object {ps : List (MojString × MojObject)}
    (hps : ∀ x ∈ ps, x.2.noLeast = true ∧ ReadsValue x.2) : ReadsValue (.object ps) := by
  refine .of_finished fun p below hp hn => ?_
  obtain ⟨q₁, hq₁, hin⟩ := hp.openObject
  cases ps with
  | nil =>
    obtain ⟨q₂, hq₂, hfin⟩ := hin.close
    exact ⟨q₂, hq₁.trans hq₂, hfin⟩
  | cons x ps =>
    obtain ⟨k, a⟩ := x
    obtain ⟨hleast, hvalue⟩ : a.noLeast = true ∧ ReadsValue a := hps (k, a) List.mem_cons_self
    obtain ⟨c, t, htext, hc⟩ := jsonText_first hleast
    rw [nesting, nestingProps] at hn
    rw [ReadsValue, htext] at hvalue
    obtain ⟨r, q₂, vs, ws, hr, hq₂, hafter, hev⟩ := hin.property k hc hvalue (by omega)
    obtain ⟨q₃, hq₃, hfin⟩ := eats_properties (fun y hy => hps y (List.mem_cons_of_mem _ hy)) hafter hr
      (by omega)
    refine ⟨q₃, ?_, hfin⟩
    have hall := hq₁.trans (hq₂.trans hq₃)
    rw [← htext] at hall
    simpa [jsonText, jsonTextProps, commaIf, MojObject.visit, visitProps, ofVisit, ← hev] using hall

theorem readsValue {o : MojObject} (h : o.noLeast = true) : ReadsValue o := by
  induction o using inductionOn with
  | object ps ih =>
    rw [noLeast, noLeastProps_iff] at h
    exact readsValue_object fun x hx => ⟨h x hx, ih x hx (h x hx)⟩
  | array xs ih =>
    rw [noLeast, noLeastVec_iff] at h
    exact readsValue_array fun x hx => ⟨h x hx, ih x hx (h x hx)⟩
  | undefined => exact readsAs_null
  | null => exact readsAs_null
  | string s => exact readsAs_string s
  | bool b => exact readsAs_bool b
  | int i => exact readsAs_int i
  | decimal d => exact readsAs_decimal (of_decide_eq_true h)

/-! ## A whole text -/

theorem After.finish {p : MojJsonParser} {ws : List JsonVisit} (h : p.After ws [])
    (visitor : JsonVisit → Visiting τ Unit) : finish visitor p = calls visitor ws := by
  obtain ⟨q, hq, hredo⟩ := h
  have hline : p.countLine 0 = p := if_neg (by decide)
  have hdone : redo visitor q 0 = pure (.done (q.goto .stateFinish)) := by
    rw [redo_goto_saved hq.state_eq (by decide) (by decide), hq.savedState_eq]
    exact redo_done visitor (p := q.goto .stateFinish) rfl hq.below_eq 0
  have hfinished : (q.goto .stateFinish).finished = true := finished_iff.mpr ⟨rfl, hq.below_eq⟩
  rw [MojJsonParser.finish, parseEnd, parseChunk_cons, hline, hredo τ visitor 0 (by decide), hdone]
  simp [hfinished]

theorem parse_toJson {o : MojObject} (hleast : o.noLeast = true) (hn : o.nesting < MaxDepth)
    (visitor : JsonVisit → Visiting τ Unit) :
    parse visitor o.toJson = calls visitor (o.visit.map ofVisit) := by
  obtain ⟨q, vs, ws, hq, hafter, hev⟩ := readsValue hleast init.begin [] ⟨rfl, rfl⟩ (by simpa using hn)
  have hchunk := hq τ visitor []
  rw [List.append_nil] at hchunk
  rw [parse, toJson_eq, hchunk, ← hev, calls_append]
  simp [parseChunk, hafter.finish visitor]

/-! ## Building -/

theorem calls_builderVisitor (vs : List Visit) (b : MojObjectBuilder) :
    calls builderVisitor (vs.map ofVisit) b = (.ok (), b.visit vs) := by
  induction vs generalizing b with
  | nil => rfl
  | cons v vs ih =>
    have hcall : builderVisitor (ofVisit v) b = (.ok (), b.call v) := by
      rw [builderVisitor, toVisit_ofVisit]
    rw [List.map_cons, calls]
    change (match builderVisitor (ofVisit v) b with
      | (.ok _, b) => calls builderVisitor (vs.map ofVisit) b
      | (.error e, b) => (.error e, b)) = _
    rw [hcall]
    exact ih (b.call v)

end MojJsonParser

namespace MojObject

theorem fromJson_toJson_eq_written {o : MojObject} (hord : o.isOrdered = true)
    (hn : o.nesting < MaxDepth) (hleast : o.noLeast = true) : fromJson o.toJson = .ok o.written := by
  rw [fromJson, parse_toJson hleast hn, calls_builderVisitor]
  exact congrArg Except.ok (MojObjectBuilder.build_visit hord)

/-! ### The least decimal is never read -/

theorem noLeast_put {o val : MojObject} {key : MojString} (ho : o.noLeast = true)
    (hval : val.noLeast = true) : (o.put key val).noLeast = true := by
  cases o with
  | object ps =>
    rw [noLeast, noLeastProps_iff] at ho
    rw [put, noLeast, noLeastProps_iff]
    intro p hp
    cases mem_putProp hp with
    | inl h => rwa [h]
    | inr h => exact ho p h
  | _ => simp [put, noLeast, noLeastProps, hval]

theorem noLeast_push {o val : MojObject} (ho : o.noLeast = true) (hval : val.noLeast = true) :
    (o.push val).noLeast = true := by
  cases o with
  | array xs =>
    rw [noLeast, noLeastVec_iff] at ho
    rw [push, noLeast, noLeastVec_iff]
    intro x hx
    cases List.mem_append.mp hx with
    | inl h => exact ho x h
    | inr h => rwa [List.mem_singleton.mp h]
  | _ => simp [push, noLeast, noLeastVec, hval]

theorem noLeast_closed : MojObjectBuilder.Closed fun o => o.noLeast = true :=
  ⟨rfl, rfl, noLeast_put, noLeast_push⟩

theorem builderVisitor_keeps (v : JsonVisit) (hv : v ≠ .decimalValue MojDecimal.least) :
    Keeps (fun b : MojObjectBuilder => b.All fun o => o.noLeast = true) (builderVisitor v) := by
  intro b hb
  refine hb.call noLeast_closed fun o ho => ?_
  cases v with
  | beginObject | endObject | beginArray | endArray | propName => cases ho
  | decimalValue d =>
    cases ho
    exact decide_eq_true fun he => hv (congrArg JsonVisit.decimalValue he)
  | _ =>
    cases ho
    rfl

theorem noLeast_of_fromJson {chars : List MojByte} {o : MojObject} (h : fromJson chars = .ok o) :
    o.noLeast = true := by
  have hinit : MojObjectBuilder.init.All fun o => o.noLeast = true :=
    ⟨rfl, by simp [MojObjectBuilder.init]⟩
  have hkeeps := (parse_keeps builderVisitor_keeps chars _ hinit).1
  unfold fromJson at h
  split at h
  · rename_i heq
    rw [heq] at hkeeps
    cases h
    exact hkeeps
  · cases h

/-- **The parser inverts the writer** on values that are nested less deep than the parser goes,
exactly when no part of the value is `undefined`, which is written as `null`, or the least decimal,
whose text is no number. -/
theorem fromJson_toJson (o : MojObject) (hord : o.isOrdered = true) (hn : o.nesting < MaxDepth) :
    fromJson o.toJson = .ok o ↔ o.isDefined = true ∧ o.noLeast = true := by
  constructor
  · intro h
    have hleast := noLeast_of_fromJson h
    rw [fromJson_toJson_eq_written hord hn hleast, Except.ok.injEq] at h
    exact ⟨written_eq_self_iff.mp h, hleast⟩
  · intro h
    rw [fromJson_toJson_eq_written hord hn h.2, written_of_isDefined h.1]

/-- `{"\n\"\u0001": [-9223372036854775808, -1.5, {}], "bc": [[null]]}`. -/
def controlObject : MojObject :=
  .object [(⟨[10, 34, 1], by decide⟩, .array [.int Int64.minValue, .decimal ⟨-1500000⟩, .object []]),
    (⟨[98, 99], by decide⟩, .array [.array [.null]])]

theorem fromJson_toJson_control : fromJson controlObject.toJson = .ok controlObject :=
  (fromJson_toJson controlObject (by decide) (by decide)).mpr ⟨by decide, by decide⟩

theorem fromJson_toJson_least :
    ¬ ∀ o : MojObject, o.isOrdered = true → o.isDefined = true → o.nesting < MaxDepth →
      fromJson o.toJson = .ok o := by
  intro h
  have hleast := noLeast_of_fromJson (h (.decimal MojDecimal.least) rfl rfl (by decide))
  exact absurd hleast (by decide)

end MojObject

end Db8
