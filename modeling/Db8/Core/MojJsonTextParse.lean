import Db8.Core.MojJsonTextNumber
import Db8.Core.MojJsonParserEnd

/-!
# Core.MojJsonTextParse

The parser on the texts of the grammar.

* `Behind`, `Fails` — how the reading of a part of a text may come out.
* `Item`            — an element or a member with the comma in front of it; one induction serves arrays and objects.
* `understood`      — a value that is taken is read as its tokens, any other is refused.
-/

namespace Db8

open Lib MojJsonParser MojNumber

/-! ## What the parser takes -/

/-- The parser refuses the zero character in a string and the decimals that are out of range. -/
def JsonToken.Taken : JsonToken → Prop
  | .name s => ∀ x ∈ s, x.isNul = false
  | .string s => ∀ x ∈ s, x.isNul = false
  | .number n => n.Taken
  | _ => True

/-- What is heard of a string, character by character. -/
def spellEach (s : List JsonChar) : List MojByte := s.flatMap JsonChar.bytes

def JsonToken.heard : JsonToken → JsonVisit := JsonToken.visit spellEach JsonNumber.heard

def JsonValue.isNumber : JsonValue → Bool
  | .number _ => true
  | _ => false

namespace MojJsonParser

variable {τ : Type}

/-! ## White space -/

theorem isSpace_char (w : JsonWs) : isSpace w.char = true := by
  cases w <;> decide

theorem isNumberChar_of_isSpace {c : MojByte} (h : isSpace c = true) : isNumberChar c = false := by
  have hne : ∀ d : MojByte, isSpace d = false → c ≠ d := by
    rintro d hd rfl
    rw [h] at hd
    cases hd
  have hdigit : digit? c = none := by
    simp only [isSpace, decide_eq_true_eq] at h
    rw [digit?, if_neg (by omega)]
  have hdecimal : isDecimalChar c = false :=
    decide_eq_false (by simp [hne (ch '.') (by decide), hne (ch 'e') (by decide), hne (ch 'E') (by decide)])
  simp [isNumberChar, hdigit, hdecimal, hne (ch '+') (by decide), hne (ch '-') (by decide)]

theorem countLine_top (p : MojJsonParser) (c : MojByte) : (p.countLine c).top = p.top := by
  unfold countLine
  split_ifs <;> rfl

theorem countLine_below (p : MojJsonParser) (c : MojByte) : (p.countLine c).below = p.below := by
  unfold countLine
  split_ifs <;> rfl

/-- A character that is taken at once, maybe the end of a line. -/
theorem Eats.of_counted {p q : MojJsonParser} {c : MojByte} {vs : List JsonVisit}
    (h : ∀ (τ : Type) (visitor : JsonVisit → Visiting τ Unit),
      redo visitor (p.countLine c) c = (do calls visitor vs; pure (.consumed q))) :
    Eats p [c] vs { q with col := q.col + 1 } := by
  intro τ visitor rest
  rw [List.singleton_append, parseChunk_cons, h, bind_assoc]
  simp

theorem eats_blank {p : MojJsonParser} (h : p.top.state = .stateEatWhitespace) (blank : List JsonWs) :
    ∃ q, Eats p (JsonWs.text blank) [] q ∧ q.top = p.top ∧ q.below = p.below := by
  induction blank generalizing p with
  | nil => exact ⟨p, .refl p, rfl, rfl⟩
  | cons w blank ih =>
    have hstate : (p.countLine w.char).top.state = .stateEatWhitespace := by rw [countLine_top, h]
    have hone : Eats p [w.char] [] _ := .of_counted (q := p.countLine w.char) fun τ visitor => by
      rw [redo_eatWhitespace visitor hstate, if_pos (isSpace_char w)]
      rfl
    obtain ⟨q, hq, htop, hbelow⟩ := ih (p := { p.countLine w.char with col := (p.countLine w.char).col + 1 }) hstate
    exact ⟨q, hone.trans hq, htop.trans (countLine_top p _), hbelow.trans (countLine_below p _)⟩

theorem InArray.blank {p : MojJsonParser} {below : List MojJsonStackRec} (h : p.InArray below)
    (blank : List JsonWs) : ∃ q, Eats p (JsonWs.text blank) [] q ∧ q.InArray below := by
  obtain ⟨q, hq, htop, hbelow⟩ := eats_blank h.state_eq blank
  exact ⟨q, hq, by rw [htop, h.state_eq], by rw [htop, h.savedState_eq], by rw [hbelow, h.below_eq]⟩

theorem InObject.blank {p : MojJsonParser} {below : List MojJsonStackRec} (h : p.InObject below)
    (blank : List JsonWs) : ∃ q, Eats p (JsonWs.text blank) [] q ∧ q.InObject below := by
  obtain ⟨q, hq, htop, hbelow⟩ := eats_blank h.state_eq blank
  exact ⟨q, hq, by rw [htop, h.state_eq], by rw [htop, h.savedState_eq], by rw [hbelow, h.below_eq]⟩

/-! ## Behind a value -/

/-- Behind a value; what is said of a number comes with the next character. -/
inductive Behind (p : MojJsonParser) (below : List MojJsonStackRec) : List JsonVisit → Prop
  | finished (h : p.Finished below) : Behind p below []
  | number {n : JsonNumber} (h : p.InNumber n.num.text below) (taken : n.Taken) : Behind p below [n.heard]

namespace Behind

variable {p : MojJsonParser} {below : List MojJsonStackRec} {ws : List JsonVisit}

theorem after (h : p.Behind below ws) : p.After ws below := by
  cases h with
  | finished h => exact h.after
  | number h taken => exact h.after (JsonNumber.numberIs_heard _ taken)

theorem below_eq (h : p.Behind below ws) : p.below = below := by
  cases h with
  | finished h => exact h.below_eq
  | number h _ => exact h.below_eq

theorem countLine (h : p.Behind below ws) (c : MojByte) : (p.countLine c).Behind below ws := by
  unfold MojJsonParser.countLine
  split_ifs
  · cases h with
    | finished h => exact .finished ⟨h.state_eq, h.savedState_eq, h.below_eq⟩
    | number h taken => exact .number ⟨h.state_eq, h.str_eq, h.isDecimal_eq, h.below_eq⟩ taken
  · exact h

theorem blank (h : p.Behind below ws) (blank : List JsonWs) :
    ∃ q vs ws', Eats p (JsonWs.text blank) vs q ∧ q.Behind below ws' ∧ vs ++ ws' = ws ∧ (blank ≠ [] → ws' = []) := by
  cases blank with
  | nil => exact ⟨p, [], ws, .refl p, h, rfl, fun hne => absurd rfl hne⟩
  | cons w blank =>
    obtain ⟨q, hq, hredo⟩ := (h.countLine w.char).after
    have hone : Eats p [w.char] ws _ := .of_counted (q := q) fun τ visitor => by
      rw [hredo τ visitor _ (isNumberChar_of_isSpace (isSpace_char w)), redo_eatWhitespace visitor hq.state_eq,
        if_pos (isSpace_char w)]
    obtain ⟨r, hr, htop, hbelow⟩ := eats_blank (p := { q with col := q.col + 1 }) hq.state_eq blank
    have hfinished : r.Finished below := ⟨by rw [htop]; exact hq.state_eq, by rw [htop]; exact hq.savedState_eq,
      hbelow.trans hq.below_eq⟩
    have hall := hone.trans hr
    rw [List.append_nil] at hall
    exact ⟨r, ws, [], hall, .finished hfinished, List.append_nil ws, fun _ => rfl⟩

end Behind

/-! ## Texts that are refused -/

/-- The parser throws at the next character, if it is one of `next`. -/
def Throws (q : MojJsonParser) (next : MojByte → Prop) : Prop :=
  ∃ vs e, ∀ c, next c → ∀ (τ : Type) (visitor : JsonVisit → Visiting τ Unit) (rest : List MojByte),
    parseChunk visitor q (c :: rest) = (do calls visitor vs; throw e)

/-- The text is refused: in it, or with the first character behind it that belongs to no number. With `inner`, no value ends
on the way. -/
inductive Fails (inner : Prop) (p : MojJsonParser) (cs : List MojByte) : Prop
  | inside {a b : List MojByte} {c : MojByte} {vs : List JsonVisit} {q : MojJsonParser} (text_eq : cs = a ++ c :: b)
      (eats : Eats p a vs q) (not_whole : inner → ¬q.Whole) (throws : Throws q (· = c))
  | behind {vs : List JsonVisit} {q : MojJsonParser} (eats : Eats p cs vs q) (not_whole : inner → ¬q.Whole)
      (throws : Throws q fun c => isNumberChar c = false)

namespace Fails

variable {inner : Prop} {p q : MojJsonParser} {as cs : List MojByte} {vs : List JsonVisit}

theorem mono {inner' : Prop} (h : Fails inner p cs) (hinner : inner' → inner) : Fails inner' p cs := by
  cases h with
  | inside text_eq eats not_whole throws => exact .inside text_eq eats (not_whole ∘ hinner) throws
  | behind eats not_whole throws => exact .behind eats (not_whole ∘ hinner) throws

theorem of_eats (he : Eats p as vs q) (h : Fails inner q cs) : Fails inner p (as ++ cs) := by
  cases h with
  | @inside a b c ws r text_eq eats not_whole throws =>
    exact .inside (a := as ++ a) (by rw [text_eq, List.append_assoc]) (he.trans eats) not_whole throws
  | behind eats not_whole throws => exact .behind (he.trans eats) not_whole throws

theorem append (h : Fails inner p cs) {d : MojByte} (hd : isNumberChar d = false) (ds : List MojByte) :
    Fails inner p (cs ++ d :: ds) := by
  cases h with
  | @inside a b c ws r text_eq eats not_whole throws =>
    exact .inside (b := b ++ d :: ds) (by rw [text_eq]; simp) eats not_whole throws
  | behind eats not_whole throws =>
    obtain ⟨ws, e, he⟩ := throws
    exact .inside rfl eats not_whole ⟨ws, e, fun c hc => he c (hc ▸ hd)⟩

theorem blank (h : Fails inner p cs) (blank : List JsonWs) : Fails inner p (cs ++ JsonWs.text blank) := by
  cases blank with
  | nil => simpa [JsonWs.text] using h
  | cons w blank => exact h.append (isNumberChar_of_isSpace (isSpace_char w)) _

/-- A first character that is looked at in another state. -/
theorem of_redo_eq {c : MojByte} {t : List MojByte} (hc : c ≠ newline)
    (hredo : ∀ (τ : Type) (visitor : JsonVisit → Visiting τ Unit), redo visitor p c = redo visitor q c)
    (hp : inner → ¬p.Whole) (h : Fails inner q (c :: t)) : Fails inner p (c :: t) := by
  cases h with
  | @inside a b d ws r text_eq eats not_whole throws =>
    cases a with
    | nil =>
      obtain ⟨us, e, he⟩ := throws
      obtain ⟨rfl, -⟩ := List.cons.inj text_eq
      refine .inside (a := []) text_eq (.refl p) hp ⟨ws ++ us, e, ?_⟩
      rintro d rfl τ visitor rest
      have hp' : p.countLine d = p := if_neg hc
      have hq' : q.countLine d = q := if_neg hc
      have hthrow := eats τ visitor (d :: rest)
      rw [List.nil_append, he d rfl, parseChunk_cons, hq'] at hthrow
      rw [parseChunk_cons, hp', hredo, hthrow, calls_append, bind_assoc]
    | cons d' a =>
      obtain ⟨rfl, -⟩ := List.cons.inj text_eq
      exact .inside text_eq (.of_redo_eq hc hredo eats) not_whole throws
  | behind eats not_whole throws => exact .behind (.of_redo_eq hc hredo eats) not_whole throws

end Fails

/-! ## Strings -/

theorem not_whole_of_state {p : MojJsonParser} {s : MojJsonState} (h : p.top.state = s) (hnumber : s ≠ .stateNumber)
    (hfinish : s ≠ .stateFinish) (hblank : isBlank s = false) : ¬p.Whole := by
  intro hw
  have hmem := hw.state_mem
  rw [h, hblank] at hmem
  simp [hnumber, hfinish] at hmem

theorem InString.not_whole {p : MojJsonParser} {s : MojJsonState} {str : List MojByte}
    {below : List MojJsonStackRec} (h : p.InString s str below) : ¬p.Whole := by
  rcases h.isString with rfl | rfl
  · exact not_whole_of_state h.state_eq (by decide) (by decide) rfl
  · exact not_whole_of_state h.state_eq (by decide) (by decide) rfl

theorem hexDigit_char (d : HexDigit) : isHexDigit d.char = true ∧ hexDigit d.char = d.value.val := by
  have hall : ∀ (v : Fin 16) (b : Bool),
      isHexDigit (HexDigit.char ⟨v, b⟩) = true ∧ hexDigit (HexDigit.char ⟨v, b⟩) = v.val := by decide
  exact hall d.value d.capital

theorem codeUnit_char (a b c d : HexDigit) :
    hexDigit a.char * 4096 + hexDigit b.char * 256 + hexDigit c.char * 16 + hexDigit d.char =
      JsonChar.codeUnit a b c d := by
  rw [(hexDigit_char a).2, (hexDigit_char b).2, (hexDigit_char c).2, (hexDigit_char d).2]
  rfl

theorem utfOut_eq {n : Nat} (h : n < 0x10000) : utfOut n = utf8 n := by
  unfold utfOut utf8
  rw [if_pos h]

section Strings

variable {p : MojJsonParser} {s : MojJsonState} {str : List MojByte} {below : List MojJsonStackRec}

/-- Every way to write a character is read as its bytes. -/
theorem eats_jsonChar (h : p.InString s str below) {x : JsonChar} (hx : x.isNul = false) :
    ∃ q, Eats p x.text [] q ∧ q.InString s (str ++ x.bytes) below := by
  cases x with
  | unescaped c ge ne_quote ne_backslash =>
    refine eats_plain h ne_quote ne_backslash ?_
    rintro rfl
    exact absurd ge (by decide)
  | escaped e => exact eats_escapeChar h (by cases e <;> rfl) (by cases e <;> decide) (by cases e <;> decide)
  | unicode a b c d =>
    have hne : JsonChar.codeUnit a b c d ≠ 0 := of_decide_eq_false hx
    obtain ⟨q, hq, hin⟩ := eats_codeUnit h (hexDigit_char a).1 (hexDigit_char b).1 (hexDigit_char c).1
      (hexDigit_char d).1 (codeUnit_char a b c d) hne
    rw [utfOut_eq (JsonChar.codeUnit_lt a b c d)] at hin
    exact ⟨q, hq, hin⟩

/-- The zero character is refused with its last digit. -/
theorem fails_jsonChar (h : p.InString s str below) {x : JsonChar} (hx : x.isNul = true) (rest : List MojByte) :
    Fails True p (x.text ++ rest) := by
  cases x with
  | unicode a b c d =>
    obtain ⟨q, hq, hstate, -, -, -, hpos, hucs⟩ := eats_threeHex h (hexDigit_char a).1 (hexDigit_char b).1
      (hexDigit_char c).1
    have hzero : q.ucsChar + hexDigit d.char = 0 := by
      rw [hucs, codeUnit_char]
      exact of_decide_eq_true hx
    refine .inside rfl hq (fun _ => not_whole_of_state hstate (by decide) (by decide) rfl)
      ⟨[], .jsonParseEscape, ?_⟩
    rintro e rfl τ visitor rest'
    have hline : q.countLine d.char = q := if_neg (hexDigit_ne_newline (hexDigit_char d).1)
    rw [parseChunk_cons, hline, redo_lastHex hstate (hexDigit_char d).1 hpos visitor, if_pos hzero]
    rfl
  | _ => cases hx

theorem eats_chars (h : p.InString s str below) {cs : List JsonChar} (hcs : ∀ x ∈ cs, x.isNul = false) :
    ∃ q, Eats p (cs.flatMap JsonChar.text) [] q ∧ q.InString s (str ++ spellEach cs) below := by
  induction cs generalizing p str with
  | nil => exact ⟨p, .refl p, by simpa [spellEach] using h⟩
  | cons x cs ih =>
    obtain ⟨q, hq, hin⟩ := eats_jsonChar h (hcs x List.mem_cons_self)
    obtain ⟨r, hr, hout⟩ := ih hin fun y hy => hcs y (List.mem_cons_of_mem _ hy)
    exact ⟨r, hq.trans hr, by simpa [spellEach] using hout⟩

theorem fails_chars (h : p.InString s str below) {cs : List JsonChar} (hcs : ¬∀ x ∈ cs, x.isNul = false)
    (rest : List MojByte) : Fails True p (cs.flatMap JsonChar.text ++ rest) := by
  induction cs generalizing p str with
  | nil => exact absurd (fun x hx => nomatch hx) hcs
  | cons x cs ih =>
    rw [List.flatMap_cons, List.append_assoc]
    by_cases hx : x.isNul = true
    · exact fails_jsonChar h hx _
    · have hx := Bool.eq_false_iff.mpr hx
      obtain ⟨q, hq, hin⟩ := eats_jsonChar h hx
      refine .of_eats hq (ih hin fun hall => hcs fun y hy => ?_)
      rcases List.mem_cons.mp hy with rfl | hy
      · exact hx
      · exact hall y hy

end Strings

/-! ## Keywords -/

/-- Within a keyword. -/
theorem eats_word_part {s : MojJsonState} {matchTrue : Bool} {word : List MojByte} {v : JsonVisit}
    (hm : Matches s matchTrue word v) (hn : newline ∉ word) {x y : List MojByte} {p : MojJsonParser}
    (hstate : p.top.state = s) (hmatch : p.matchTrue = matchTrue) (hrest : word.drop p.strPos = x ++ y)
    (hne : y ≠ []) : ∃ q, Eats p x [] q ∧ q.top.state = s := by
  induction x generalizing p with
  | nil => exact ⟨p, .refl p, hstate⟩
  | cons c x ih =>
    have hget : word[p.strPos]? = some c := by
      rw [← List.head?_drop, hrest]
      rfl
    have hc : c ≠ newline := fun he => hn (he ▸ List.mem_of_getElem? hget)
    have htail : word.drop (p.strPos + 1) = x ++ y := by rw [← List.tail_drop, hrest]; rfl
    have hlen := congrArg List.length htail
    have hpos := List.length_pos_of_ne_nil hne
    rw [List.length_drop, List.length_append] at hlen
    have hone : Eats p [c] [] { p with strPos := p.strPos + 1, col := p.col + 1 } := by
      refine .of_consumed (q := { p with strPos := p.strPos + 1 }) hc fun τ visitor => ?_
      rw [hm p τ visitor c hstate hmatch hget, if_neg (by omega)]
      rfl
    obtain ⟨q, hq, hq'⟩ := ih (p := { p with strPos := p.strPos + 1, col := p.col + 1 }) hstate hmatch htail
    exact ⟨q, hone.trans hq, hq'⟩

/-! ## Values -/

/-- A value that the parser takes at a depth. -/
def Good (depth : Nat) (v : JsonValue) : Prop := depth + v.nesting < MaxDepth ∧ ∀ t ∈ v.tokens, t.Taken

/-- `v` is read as its tokens when it is good, and refused when it is not; and no part of it is a whole value, unless it is a
number. -/
structure Understood (v : JsonValue) : Prop where
  reads : ∀ {p : MojJsonParser} {below : List MojJsonStackRec}, p.AtStart below → Good below.length v →
    ∃ q vs ws, Eats p v.text vs q ∧ q.Behind below ws ∧ vs ++ ws = v.tokens.map JsonToken.heard ∧
      (v.isNumber = false → ws = [])
  refuses : ∀ {p : MojJsonParser} {below : List MojJsonStackRec}, p.AtStart below → below.length < MaxDepth →
    ¬Good below.length v → Fails (below ≠ [] ∨ v.isNumber = false) p v.text
  opens : ∀ {p : MojJsonParser} {below : List MojJsonStackRec}, p.AtStart below → Good below.length v →
    v.isNumber = false → ∃ a c vs q, v.text = a ++ [c] ∧ Eats p a vs q ∧ ¬q.Whole

theorem good_leaf {depth : Nat} (h : depth < MaxDepth) {v : JsonValue} (hn : v.nesting = 0) :
    Good depth v ↔ ∀ t ∈ v.tokens, t.Taken := by
  rw [Good, hn]
  exact and_iff_right h

theorem understood_null : Understood .null where
  reads hp _ := by
    obtain ⟨q, hq, hfin⟩ := hp.eats_null
    exact ⟨q, _, [], hq, .finished hfin, rfl, fun _ => rfl⟩
  refuses hp hd hbad := absurd ((good_leaf hd rfl).mpr (by simp [JsonValue.tokens, JsonToken.Taken])) hbad
  opens {p _} hp _ _ := by
    obtain ⟨q, hq, hstate⟩ := eats_word_part (x := [ch 'n', ch 'u', ch 'l']) (y := [ch 'l'])
      (p := { p.goto .stateNull with strPos := 0 }) (matches_null p.matchTrue) (by decide) rfl rfl rfl (by simp)
    refine ⟨_, _, [], q, rfl, .of_redo_eq (by decide) (fun τ visitor => ?_) hq,
      not_whole_of_state hstate (by decide) (by decide) rfl⟩
    rw [hp.redo visitor (by decide) (by decide), redo_null visitor rfl]
    rfl

theorem understood_bool (b : Bool) : Understood (.bool b) where
  reads hp _ := by
    obtain ⟨q, hq, hfin⟩ := hp.eats_bool b
    exact ⟨q, _, [], hq, .finished hfin, rfl, fun _ => rfl⟩
  refuses hp hd hbad := absurd ((good_leaf hd rfl).mpr (by simp [JsonValue.tokens, JsonToken.Taken])) hbad
  opens {p _} hp _ _ := by
    have hword := fun x y hx => eats_word_part (x := x) (y := y) (p := { p.goto .stateBool with strPos := 0, matchTrue := b })
      (matches_bool b) (by cases b <;> decide) rfl rfl hx
    cases b with
    | true =>
      obtain ⟨q, hq, hstate⟩ := hword [ch 't', ch 'r', ch 'u'] [ch 'e'] rfl (by simp)
      refine ⟨_, _, [], q, rfl, .of_redo_eq (by decide) (fun τ visitor => ?_) hq,
        not_whole_of_state hstate (by decide) (by decide) rfl⟩
      rw [hp.redo visitor (by decide) (by decide), redo_bool visitor rfl]
      rfl
    | false =>
      obtain ⟨q, hq, hstate⟩ := hword [ch 'f', ch 'a', ch 'l', ch 's'] [ch 'e'] rfl (by simp)
      refine ⟨_, _, [], q, rfl, .of_redo_eq (by decide) (fun τ visitor => ?_) hq,
        not_whole_of_state hstate (by decide) (by decide) rfl⟩
      rw [hp.redo visitor (by decide) (by decide), redo_bool visitor rfl]
      rfl

theorem understood_string (s : List JsonChar) : Understood (.string s) where
  reads hp hgood := by
    obtain ⟨q₁, hopen, hin⟩ := hp.openString
    obtain ⟨q₂, hq, hin⟩ := eats_chars hin (hgood.2 (.string s) (List.mem_singleton_self _))
    obtain ⟨q₃, hclose, hfin⟩ := hin.closeString
    exact ⟨q₃, _, [], hopen.trans (hq.trans hclose), .finished hfin, rfl, fun _ => rfl⟩
  refuses hp hd hbad := by
    obtain ⟨q, hopen, hin⟩ := hp.openString
    rw [good_leaf hd rfl] at hbad
    exact (Fails.of_eats hopen (fails_chars hin (by simpa [JsonValue.tokens, JsonToken.Taken] using hbad) _)).mono
      fun _ => trivial
  opens hp hgood _ := by
    obtain ⟨q₁, hopen, hin⟩ := hp.openString
    obtain ⟨q₂, hq, hin⟩ := eats_chars hin (hgood.2 (.string s) (List.mem_singleton_self _))
    exact ⟨_, quote, _, q₂, rfl, hopen.trans hq, hin.not_whole⟩

/-- A number that is refused is so with the character behind it. -/
theorem throws_number {p : MojJsonParser} {n : JsonNumber} {below : List MojJsonStackRec}
    (hp : p.InNumber n.num.text below) (hn : ¬n.Taken) : Throws p fun c => isNumberChar c = false := by
  obtain ⟨e, he⟩ := n.numberValue_of_not_taken hn
  refine ⟨[], e, fun c hc τ visitor rest => ?_⟩
  have hline : (p.countLine c).InNumber n.num.text below := by
    unfold MojJsonParser.countLine
    split_ifs
    · exact ⟨hp.state_eq, hp.str_eq, hp.isDecimal_eq, hp.below_eq⟩
    · exact hp
  rw [parseChunk_cons, redo_number visitor hline.state_eq, if_neg (by simp [hc]), he _ below hline]
  rfl

theorem eats_number_text {p : MojJsonParser} {below : List MojJsonStackRec} (hp : p.AtStart below) (n : JsonNumber) :
    ∃ q, Eats p n.num.text [] q ∧ q.InNumber n.num.text below := by
  obtain ⟨c, cs, htext, hc⟩ := n.text_first
  have hchars := n.isNumberChar_text
  rw [htext] at hchars ⊢
  exact hp.eats_number hc hchars

theorem understood_number (n : JsonNumber) : Understood (.number n) where
  reads hp hgood := by
    obtain ⟨q, hq, hin⟩ := eats_number_text hp n
    exact ⟨q, [], _, hq, .number hin (hgood.2 (.number n) (List.mem_singleton_self _)), rfl, nofun⟩
  refuses hp hd hbad := by
    obtain ⟨q, hq, hin⟩ := eats_number_text hp n
    rw [good_leaf hd rfl] at hbad
    refine .behind hq (fun hinner => not_whole_of_below ?_)
      (throws_number hin (by simpa [JsonValue.tokens, JsonToken.Taken] using hbad))
    rw [hin.below_eq]
    exact hinner.resolve_right nofun
  opens _ _ hnumber := by cases hnumber

/-! ### First characters -/

theorem text_first (v : JsonValue) : ∃ c t, v.text = c :: t ∧ ValueChar c := by
  cases v with
  | null => exact ⟨_, _, rfl, by decide, by decide, by decide⟩
  | bool b =>
    cases b
    · exact ⟨_, _, rfl, by decide, by decide, by decide⟩
    · exact ⟨_, _, rfl, by decide, by decide, by decide⟩
  | number n =>
    obtain ⟨c, t, htext, hc⟩ := n.text_first
    refine ⟨c, t, htext, ?_⟩
    rcases hc with hc | rfl
    · obtain ⟨d, hd, rfl⟩ := Lexer.exists_digitChar hc
      exact valueChar_digitChar hd
    · exact ⟨by decide, by decide, by decide⟩
  | string s => exact ⟨_, _, rfl, by decide, by decide, by decide⟩
  | array blank xs => exact ⟨_, _, rfl, by decide, by decide, by decide⟩
  | object blank ms => exact ⟨_, _, rfl, by decide, by decide, by decide⟩

/-! ### A value in an array or an object -/

/-- The next value is read one level deeper, below a record with `R`. -/
structure BeforeValue (R : MojJsonStackRec → Prop) (below : List MojJsonStackRec) (p : MojJsonParser) : Prop where
  push : ∀ {c : MojByte}, ValueChar c → below.length + 1 < MaxDepth → ∃ r q, R r ∧ q.AtStart (r :: below) ∧
    ∀ (τ : Type) (visitor : JsonVisit → Visiting τ Unit), redo visitor p c = redo visitor q c
  deep : ∀ {c : MojByte}, ValueChar c → ¬below.length + 1 < MaxDepth →
    ∀ (τ : Type) (visitor : JsonVisit → Visiting τ Unit), redo visitor p c = throw .jsonParseMaxDepth
  not_whole : ¬p.Whole

namespace BeforeValue

variable {R : MojJsonStackRec → Prop} {below : List MojJsonStackRec} {p : MojJsonParser} {v : JsonValue}

theorem reads (h : BeforeValue R below p) (hv : Understood v) (hgood : Good (below.length + 1) v)
    (blank : List JsonWs) :
    ∃ r q vs ws, R r ∧ Eats p (v.text ++ JsonWs.text blank) vs q ∧ q.Behind (r :: below) ws ∧
      vs ++ ws = v.tokens.map JsonToken.heard := by
  obtain ⟨c, t, htext, hc⟩ := text_first v
  obtain ⟨r, q, hr, hstart, hredo⟩ := h.push hc (by have := hgood.1; omega)
  obtain ⟨q₁, vs, ws, hq₁, hbehind, hev, -⟩ := hv.reads hstart hgood
  obtain ⟨q₂, vs', ws', hq₂, hbehind', hev', -⟩ := hbehind.blank blank
  rw [htext] at hq₁ ⊢
  refine ⟨r, q₂, vs ++ vs', ws', hr, (Eats.of_redo_eq hc.ne_newline hredo hq₁).trans hq₂, hbehind', ?_⟩
  rw [List.append_assoc, hev', hev]

theorem refuses (h : BeforeValue R below p) (hv : Understood v) (hbad : ¬Good (below.length + 1) v)
    (blank : List JsonWs) : Fails True p (v.text ++ JsonWs.text blank) := by
  obtain ⟨c, t, htext, hc⟩ := text_first v
  by_cases hdepth : below.length + 1 < MaxDepth
  · obtain ⟨r, q, -, hstart, hredo⟩ := h.push hc hdepth
    have hfails := (hv.refuses hstart hdepth hbad).mono fun _ : True => .inl (List.cons_ne_nil r below)
    rw [htext] at hfails ⊢
    exact (Fails.of_redo_eq hc.ne_newline hredo (fun _ => h.not_whole) hfails).blank blank
  · rw [htext]
    refine .inside (a := []) rfl (.refl p) (fun _ => h.not_whole) ⟨[], .jsonParseMaxDepth, ?_⟩
    rintro d rfl τ visitor rest
    have hline : p.countLine d = p := if_neg hc.ne_newline
    rw [parseChunk_cons, hline, h.deep hc hdepth]
    rfl

end BeforeValue

/-! ### The items of an array or an object -/

section Items

variable {ι : Type} (At : MojJsonParser → Bool → List JsonVisit → Prop) (text : ι → List MojByte)
  (tokens : ι → List JsonToken) (ok : ι → Prop)

def itemsText : Bool → List ι → List MojByte
  | _, [] => []
  | comma, x :: xs => MojObject.commaIf comma ++ (text x ++ itemsText true xs)

/-- One item, with the comma in front of it. -/
structure Item (x : ι) : Prop where
  reads : ∀ {p : MojJsonParser} {comma : Bool} {ws : List JsonVisit}, At p comma ws → ok x →
    ∃ q vs ws', Eats p (MojObject.commaIf comma ++ text x) vs q ∧ At q true ws' ∧
      vs ++ ws' = ws ++ (tokens x).map JsonToken.heard
  refuses : ∀ {p : MojJsonParser} {comma : Bool} {ws : List JsonVisit}, At p comma ws → ¬ok x →
    Fails True p (MojObject.commaIf comma ++ text x)

theorem itemsText_first (xs : List ι) {c : MojByte} (hc : isNumberChar c = false) :
    ∃ d ds, itemsText text true xs ++ [c] = d :: ds ∧ isNumberChar d = false := by
  cases xs with
  | nil => exact ⟨c, [], rfl, hc⟩
  | cons x xs => exact ⟨ch ',', _, rfl, by decide⟩

variable {At text tokens ok} {xs : List ι}

theorem eats_items (hxs : ∀ x ∈ xs, Item At text tokens ok x) (hok : ∀ x ∈ xs, ok x) {p : MojJsonParser}
    {comma : Bool} {ws : List JsonVisit} (h : At p comma ws) :
    ∃ q comma' vs ws', Eats p (itemsText text comma xs) vs q ∧ At q comma' ws' ∧
      vs ++ ws' = ws ++ (xs.flatMap tokens).map JsonToken.heard := by
  induction xs generalizing p comma ws with
  | nil => exact ⟨p, comma, [], ws, .refl p, h, by simp⟩
  | cons x xs ih =>
    obtain ⟨q, vs, ws₁, hq, hat, hev⟩ := (hxs x List.mem_cons_self).reads h (hok x List.mem_cons_self)
    obtain ⟨r, comma', vs', ws₂, hr, hat', hev'⟩ := ih (fun y hy => hxs y (List.mem_cons_of_mem _ hy))
      (fun y hy => hok y (List.mem_cons_of_mem _ hy)) hat
    refine ⟨r, comma', vs ++ vs', ws₂, ?_, hat', ?_⟩
    · rw [itemsText, ← List.append_assoc]
      exact hq.trans hr
    · rw [List.append_assoc, hev', ← List.append_assoc, hev, List.flatMap_cons, List.map_append, List.append_assoc]

theorem fails_items (hxs : ∀ x ∈ xs, Item At text tokens ok x) (hbad : ¬∀ x ∈ xs, ok x) {p : MojJsonParser}
    {comma : Bool} {ws : List JsonVisit} (h : At p comma ws) {c : MojByte} (hc : isNumberChar c = false) :
    Fails True p (itemsText text comma xs ++ [c]) := by
  induction xs generalizing p comma ws with
  | nil => exact absurd (fun x hx => nomatch hx) hbad
  | cons x xs ih =>
    have hx := hxs x List.mem_cons_self
    rw [itemsText, ← List.append_assoc, List.append_assoc]
    by_cases hok : ok x
    · obtain ⟨q, vs, ws₁, hq, hat, -⟩ := hx.reads h hok
      refine .of_eats hq (ih (fun y hy => hxs y (List.mem_cons_of_mem _ hy)) (fun hall => hbad fun y hy => ?_) hat)
      rcases List.mem_cons.mp hy with rfl | hy
      · exact hok
      · exact hall y hy
    · obtain ⟨d, ds, htext, hd⟩ := itemsText_first text xs hc
      rw [htext]
      exact (hx.refuses h hok).append hd ds

end Items

/-! ### Arrays -/

/-- In an array, in front of the first element or behind one. -/
inductive ArrayAt (below : List MojJsonStackRec) (p : MojJsonParser) : Bool → List JsonVisit → Prop
  | first (h : p.InArray below) : ArrayAt below p false []
  | next {r : MojJsonStackRec} {ws : List JsonVisit} (h : p.Behind (r :: below) ws) (hr : r.state = .stateArraySep) :
      ArrayAt below p true ws

def elementText (x : Padded JsonValue) : List MojByte := JsonWs.text x.before ++ (x.value.text ++ JsonWs.text x.after)

namespace ArrayAt

variable {below : List MojJsonStackRec} {p : MojJsonParser} {comma : Bool} {ws : List JsonVisit}

theorem enter (h : ArrayAt below p comma ws) : ∃ q, Eats p (MojObject.commaIf comma) ws q ∧ q.InArray below := by
  cases h with
  | first h => exact ⟨p, .refl p, h⟩
  | next h hr => exact h.after.nextElement hr

theorem close (h : ArrayAt below p comma ws) :
    ∃ q, Eats p [ch ']'] (ws ++ [.endArray]) q ∧ q.Finished below := by
  cases h with
  | first h => exact h.close
  | next h hr => exact h.after.closeArray hr

theorem not_whole (h : ArrayAt below p comma ws) : ¬p.Whole := by
  cases h with
  | first h =>
    intro hw
    have hsaved := hw.saved (by rw [h.state_eq]; rfl)
    rw [h.savedState_eq] at hsaved
    cases hsaved
  | next h _ => exact not_whole_of_below (by rw [h.below_eq]; exact List.cons_ne_nil _ _)

end ArrayAt

theorem InArray.beforeValue {p : MojJsonParser} {below : List MojJsonStackRec} (h : p.InArray below) :
    BeforeValue (fun r => r.state = .stateArraySep) below p where
  push := h.push
  deep hc hdepth τ visitor := by
    have hlen : (p.goto .stateArray).depth = below.length := congrArg List.length h.below_eq
    rw [redo_goto_saved h.state_eq hc.not_space hc.not_slash, h.savedState_eq, redo_array visitor rfl,
      if_neg hc.not_end, if_pos (by omega)]
  not_whole := (ArrayAt.first h).not_whole

theorem item_element {below : List MojJsonStackRec} {x : Padded JsonValue} (hv : Understood x.value) :
    Item (ArrayAt below) elementText (fun y => y.value.tokens) (fun y => Good (below.length + 1) y.value) x where
  reads {p comma ws} h hgood := by
    obtain ⟨q₁, hq₁, hin⟩ := h.enter
    obtain ⟨q₂, hq₂, hin₂⟩ := hin.blank x.before
    obtain ⟨r, q₃, vs, ws', hr, hq₃, hbehind, hev⟩ := hin₂.beforeValue.reads hv hgood x.after
    refine ⟨q₃, ws ++ ([] ++ vs), ws', hq₁.trans (hq₂.trans hq₃), .next hbehind hr, ?_⟩
    rw [List.nil_append, List.append_assoc, hev]
  refuses {p comma ws} h hbad := by
    obtain ⟨q₁, hq₁, hin⟩ := h.enter
    obtain ⟨q₂, hq₂, hin₂⟩ := hin.blank x.before
    exact .of_eats hq₁ (.of_eats hq₂ (hin₂.beforeValue.refuses hv hbad x.after))

theorem elementsText_eq (comma : Bool) (xs : List (Padded JsonValue)) :
    elementsText comma xs = itemsText elementText comma xs := by
  induction xs generalizing comma with
  | nil => rfl
  | cons x xs ih =>
    rw [itemsText, ← ih true]
    simp [elementsText, elementText]

theorem elementsTokens_eq (xs : List (Padded JsonValue)) : elementsTokens xs = xs.flatMap fun x => x.value.tokens := by
  induction xs with
  | nil => rfl
  | cons x xs ih =>
    rw [List.flatMap_cons, ← ih]
    rfl

theorem good_array {depth : Nat} (h : depth < MaxDepth) {blank : List JsonWs} {xs : List (Padded JsonValue)} :
    Good depth (.array blank xs) ↔ ∀ x ∈ xs, Good (depth + 1) x.value := by
  have hnesting : depth + elementsNesting xs < MaxDepth ↔ ∀ x ∈ xs, depth + 1 + x.value.nesting < MaxDepth := by
    induction xs with
    | nil => simpa [elementsNesting] using h
    | cons x xs ih =>
      rw [List.forall_mem_cons, ← ih]
      simp only [elementsNesting]
      omega
  simp only [Good, JsonValue.nesting, JsonValue.tokens, elementsTokens_eq, hnesting, List.forall_mem_cons,
    List.forall_mem_append, List.mem_flatMap]
  constructor
  · rintro ⟨hdepth, -, htokens, -⟩ x hx
    exact ⟨hdepth x hx, fun t ht => htokens t ⟨x, hx, ht⟩⟩
  · intro hall
    refine ⟨fun x hx => (hall x hx).1, trivial, ?_, trivial, nofun⟩
    rintro t ⟨x, hx, ht⟩
    exact (hall x hx).2 t ht

theorem understood_array (blank : List JsonWs) {xs : List (Padded JsonValue)} (hxs : ∀ x ∈ xs, Understood x.value) :
    Understood (.array blank xs) := by
  have hitems : ∀ (below : List MojJsonStackRec), ∀ x ∈ xs, Item (ArrayAt below) elementText (fun y => y.value.tokens)
      (fun y => Good (below.length + 1) y.value) x := fun below x hx => item_element (hxs x hx)
  have hopen : ∀ {p : MojJsonParser} {below : List MojJsonStackRec}, p.AtStart below →
      ∃ q, Eats p (ch '[' :: JsonWs.text blank) [.beginArray] q ∧ ArrayAt below q false [] := by
    intro p below hp
    obtain ⟨q₁, hq₁, hin⟩ := hp.openArray
    obtain ⟨q₂, hq₂, hin₂⟩ := hin.blank blank
    exact ⟨q₂, hq₁.trans hq₂, .first hin₂⟩
  have htext : (JsonValue.array blank xs).text =
      (ch '[' :: JsonWs.text blank) ++ (itemsText elementText false xs ++ [ch ']']) := by
    rw [JsonValue.text, elementsText_eq]
    rfl
  refine ⟨?_, ?_, ?_⟩
  · intro p below hp hgood
    obtain ⟨q₁, hq₁, hat⟩ := hopen hp
    obtain ⟨q₂, comma, vs, ws, hq₂, hat₂, hev⟩ := eats_items (hitems below) ((good_array (by have := hgood.1; omega)).mp hgood) hat
    obtain ⟨q₃, hq₃, hfin⟩ := hat₂.close
    refine ⟨q₃, [.beginArray] ++ (vs ++ (ws ++ [.endArray])), [], htext ▸ hq₁.trans (hq₂.trans hq₃), .finished hfin, ?_,
      fun _ => rfl⟩
    rw [← List.append_assoc vs, hev, JsonValue.tokens, elementsTokens_eq]
    simp [JsonToken.heard, JsonToken.visit]
  · intro p below hp hd hbad
    obtain ⟨q₁, hq₁, hat⟩ := hopen hp
    rw [htext]
    exact (Fails.of_eats hq₁ (fails_items (hitems below) (mt (good_array hd).mpr hbad) hat (by decide))).mono fun _ => trivial
  · intro p below hp hgood _
    obtain ⟨q₁, hq₁, hat⟩ := hopen hp
    obtain ⟨q₂, comma, vs, ws, hq₂, hat₂, -⟩ := eats_items (hitems below) ((good_array (by have := hgood.1; omega)).mp hgood) hat
    exact ⟨_, ch ']', _, q₂, by rw [htext, ← List.append_assoc], hq₁.trans hq₂, hat₂.not_whole⟩

/-! ### Objects -/

/-- In an object, in front of the first member or behind one. -/
inductive ObjectAt (below : List MojJsonStackRec) (p : MojJsonParser) : Bool → List JsonVisit → Prop
  | first (h : p.InObject below) : ObjectAt below p false []
  | next {r : MojJsonStackRec} {ws : List JsonVisit} (h : p.Behind (r :: below) ws) (hr : ObjectRec r) :
      ObjectAt below p true ws

def memberText (m : JsonMember JsonValue) : List MojByte :=
  JsonWs.text m.before ++ (JsonChar.stringText m.name ++ (JsonWs.text m.after ++ (ch ':' ::
    (JsonWs.text m.value.before ++ (m.value.value.text ++ JsonWs.text m.value.after)))))

def memberTokens (m : JsonMember JsonValue) : List JsonToken := .name m.name :: m.value.value.tokens

/-- A member that the parser takes in an object at a depth. -/
def GoodMember (depth : Nat) (m : JsonMember JsonValue) : Prop :=
  (∀ x ∈ m.name, x.isNul = false) ∧ Good (depth + 1) m.value.value

namespace ObjectAt

variable {below : List MojJsonStackRec} {p : MojJsonParser} {comma : Bool} {ws : List JsonVisit}

theorem enter (h : ObjectAt below p comma ws) : ∃ q, Eats p (MojObject.commaIf comma) ws q ∧ q.InObject below := by
  cases h with
  | first h => exact ⟨p, .refl p, h⟩
  | next h hr => exact h.after.nextProperty hr

theorem close (h : ObjectAt below p comma ws) :
    ∃ q, Eats p [ch '}'] (ws ++ [.endObject]) q ∧ q.Finished below := by
  cases h with
  | first h => exact h.close
  | next h hr => exact h.after.closeObject hr

theorem not_whole (h : ObjectAt below p comma ws) : ¬p.Whole := by
  cases h with
  | first h =>
    intro hw
    have hsaved := hw.saved (by rw [h.state_eq]; rfl)
    rw [h.savedState_eq] at hsaved
    cases hsaved
  | next h _ => exact not_whole_of_below (by rw [h.below_eq]; exact List.cons_ne_nil _ _)

end ObjectAt

/-- Behind the colon. -/
theorem beforeValue_objValue {p : MojJsonParser} {below : List MojJsonStackRec}
    (hstate : p.top.state = .stateEatWhitespace) (hsaved : p.top.savedState = .stateObjValue)
    (hbelow : p.below = below) : BeforeValue ObjectRec below p where
  push := push_objValue hstate hsaved hbelow
  deep hc hdepth τ visitor := by
    have hlen : (p.goto .stateObjValue).depth = below.length := congrArg List.length hbelow
    rw [redo_goto_saved hstate hc.not_space hc.not_slash, hsaved, redo_objValue visitor rfl, if_pos (by omega)]
  not_whole hw := by
    have hfinish := hw.saved (by rw [hstate]; rfl)
    rw [hsaved] at hfinish
    cases hfinish

/-- What stands in front of the value of a member. -/
theorem InObject.eats_lead {p : MojJsonParser} {below : List MojJsonStackRec} (h : p.InObject below)
    {m : JsonMember JsonValue} (hname : ∀ x ∈ m.name, x.isNul = false) :
    ∃ q, Eats p (JsonWs.text m.before ++ (JsonChar.stringText m.name ++ (JsonWs.text m.after ++ (ch ':' ::
      JsonWs.text m.value.before)))) [.propName (spellEach m.name)] q ∧ BeforeValue ObjectRec below q := by
  obtain ⟨q₁, hq₁, hin₁⟩ := h.blank m.before
  obtain ⟨q₂, hq₂, hin₂⟩ := hin₁.openName
  obtain ⟨q₃, hq₃, hin₃⟩ := eats_chars hin₂ hname
  obtain ⟨q₄, hq₄, hstate₄, hsaved₄, hbelow₄⟩ := hin₃.closeName
  obtain ⟨q₅, hq₅, htop₅, hbelow₅⟩ := eats_blank hstate₄ m.after
  obtain ⟨q₆, hq₆, hstate₆, hsaved₆, hbelow₆⟩ := eats_colon (by rw [htop₅, hstate₄]) (by rw [htop₅, hsaved₄])
    (hbelow₅.trans hbelow₄)
  obtain ⟨q₇, hq₇, htop₇, hbelow₇⟩ := eats_blank hstate₆ m.value.before
  refine ⟨q₇, ?_, beforeValue_objValue (by rw [htop₇, hstate₆]) (by rw [htop₇, hsaved₆]) (hbelow₇.trans hbelow₆)⟩
  have hall := hq₁.trans (hq₂.trans (hq₃.trans (hq₄.trans (hq₅.trans (hq₆.trans hq₇)))))
  simpa [JsonChar.stringText] using hall

theorem item_member {below : List MojJsonStackRec} {m : JsonMember JsonValue} (hv : Understood m.value.value) :
    Item (ObjectAt below) memberText memberTokens (GoodMember below.length) m where
  reads {p comma ws} h hgood := by
    obtain ⟨q₁, hq₁, hin⟩ := h.enter
    obtain ⟨q₂, hq₂, hbefore⟩ := hin.eats_lead hgood.1
    obtain ⟨r, q₃, vs, ws', hr, hq₃, hbehind, hev⟩ := hbefore.reads hv hgood.2 m.value.after
    refine ⟨q₃, ws ++ ([.propName (spellEach m.name)] ++ vs), ws', ?_, .next hbehind hr, ?_⟩
    · simpa [memberText] using hq₁.trans (hq₂.trans hq₃)
    · rw [List.append_assoc, List.append_assoc, hev]
      rfl
  refuses {p comma ws} h hbad := by
    obtain ⟨q₁, hq₁, hin⟩ := h.enter
    by_cases hname : ∀ x ∈ m.name, x.isNul = false
    · obtain ⟨q₂, hq₂, hbefore⟩ := hin.eats_lead hname
      have hfails := Fails.of_eats hq₁ (.of_eats hq₂ (hbefore.refuses hv (fun hgood => hbad ⟨hname, hgood⟩) m.value.after))
      simpa [memberText] using hfails
    · obtain ⟨q₂, hq₂, hin₂⟩ := hin.blank m.before
      obtain ⟨q₃, hq₃, hin₃⟩ := hin₂.openName
      have hfails := Fails.of_eats hq₁ (.of_eats hq₂ (.of_eats hq₃ (fails_chars hin₃ hname ([quote] ++ (JsonWs.text m.after ++
        (ch ':' :: (JsonWs.text m.value.before ++ (m.value.value.text ++ JsonWs.text m.value.after))))))))
      simpa [memberText, JsonChar.stringText] using hfails

theorem membersText_eq (comma : Bool) (ms : List (JsonMember JsonValue)) :
    membersText comma ms = itemsText memberText comma ms := by
  induction ms generalizing comma with
  | nil => rfl
  | cons m ms ih =>
    rw [itemsText, ← ih true]
    simp [membersText, memberText]

theorem membersTokens_eq (ms : List (JsonMember JsonValue)) : membersTokens ms = ms.flatMap memberTokens := by
  induction ms with
  | nil => rfl
  | cons m ms ih =>
    rw [List.flatMap_cons, ← ih]
    rfl

theorem good_object {depth : Nat} (h : depth < MaxDepth) {blank : List JsonWs} {ms : List (JsonMember JsonValue)} :
    Good depth (.object blank ms) ↔ ∀ m ∈ ms, GoodMember depth m := by
  have hnesting : depth + membersNesting ms < MaxDepth ↔ ∀ m ∈ ms, depth + 1 + m.value.value.nesting < MaxDepth := by
    induction ms with
    | nil => simpa [membersNesting] using h
    | cons m ms ih =>
      have hcons : membersNesting (m :: ms) = max (m.value.value.nesting + 1) (membersNesting ms) := rfl
      rw [List.forall_mem_cons, ← ih, hcons]
      omega
  simp only [Good, GoodMember, JsonValue.nesting, JsonValue.tokens, membersTokens_eq, hnesting, List.forall_mem_cons,
    List.forall_mem_append, List.mem_flatMap]
  constructor
  · rintro ⟨hdepth, -, htokens, -⟩ m hm
    exact ⟨htokens (.name m.name) ⟨m, hm, List.mem_cons_self⟩, hdepth m hm,
      fun t ht => htokens t ⟨m, hm, List.mem_cons_of_mem _ ht⟩⟩
  · intro hall
    refine ⟨fun m hm => (hall m hm).2.1, trivial, ?_, trivial, nofun⟩
    rintro t ⟨m, hm, ht⟩
    rcases List.mem_cons.mp ht with rfl | ht
    · exact (hall m hm).1
    · exact (hall m hm).2.2 t ht

theorem understood_object (blank : List JsonWs) {ms : List (JsonMember JsonValue)}
    (hms : ∀ m ∈ ms, Understood m.value.value) : Understood (.object blank ms) := by
  have hitems : ∀ (below : List MojJsonStackRec), ∀ m ∈ ms,
      Item (ObjectAt below) memberText memberTokens (GoodMember below.length) m := fun below m hm => item_member (hms m hm)
  have hopen : ∀ {p : MojJsonParser} {below : List MojJsonStackRec}, p.AtStart below →
      ∃ q, Eats p (ch '{' :: JsonWs.text blank) [.beginObject] q ∧ ObjectAt below q false [] := by
    intro p below hp
    obtain ⟨q₁, hq₁, hin⟩ := hp.openObject
    obtain ⟨q₂, hq₂, hin₂⟩ := hin.blank blank
    exact ⟨q₂, hq₁.trans hq₂, .first hin₂⟩
  have htext : (JsonValue.object blank ms).text =
      (ch '{' :: JsonWs.text blank) ++ (itemsText memberText false ms ++ [ch '}']) := by
    rw [JsonValue.text, membersText_eq]
    rfl
  refine ⟨?_, ?_, ?_⟩
  · intro p below hp hgood
    obtain ⟨q₁, hq₁, hat⟩ := hopen hp
    obtain ⟨q₂, comma, vs, ws, hq₂, hat₂, hev⟩ := eats_items (hitems below) ((good_object (by have := hgood.1; omega)).mp hgood) hat
    obtain ⟨q₃, hq₃, hfin⟩ := hat₂.close
    refine ⟨q₃, [.beginObject] ++ (vs ++ (ws ++ [.endObject])), [], htext ▸ hq₁.trans (hq₂.trans hq₃), .finished hfin, ?_,
      fun _ => rfl⟩
    rw [← List.append_assoc vs, hev, JsonValue.tokens, membersTokens_eq]
    simp [JsonToken.heard, JsonToken.visit]
  · intro p below hp hd hbad
    obtain ⟨q₁, hq₁, hat⟩ := hopen hp
    rw [htext]
    exact (Fails.of_eats hq₁ (fails_items (hitems below) (mt (good_object hd).mpr hbad) hat (by decide))).mono fun _ => trivial
  · intro p below hp hgood _
    obtain ⟨q₁, hq₁, hat⟩ := hopen hp
    obtain ⟨q₂, comma, vs, ws, hq₂, hat₂, -⟩ := eats_items (hitems below) ((good_object (by have := hgood.1; omega)).mp hgood) hat
    exact ⟨_, ch '}', _, q₂, by rw [htext, ← List.append_assoc], hq₁.trans hq₂, hat₂.not_whole⟩

/-- **Every value is read as its tokens, or refused.** -/
theorem understood (v : JsonValue) : Understood v := by
  induction v using JsonValue.inductionOn with
  | null => exact understood_null
  | bool b => exact understood_bool b
  | number n => exact understood_number n
  | string s => exact understood_string s
  | array blank xs ih => exact understood_array blank ih
  | object blank ms ih => exact understood_object blank ih

end MojJsonParser

end Db8
