import Db8.Core.MojJsonParserEnd

/-!
# Core.MojJsonParserBegin

What an earlier value leaves in the members of the parser does not matter.

* `Alike`            — the members that the state looks at are the same.
* `parseChunk_alike` — parsers that are alike do the same with a text and are alike afterwards.
* `alike_begin`      — behind `begin`, a parser is like a new one.
* `parseChunk_start` — where a value may begin, a character is taken.
* `parseEnd_startRec` — there the zero of `end` is taken like any other.
-/

namespace Db8

open Lib

namespace MojJsonParser

variable {τ : Type} (visitor : JsonVisit → Visiting τ Unit)

structure Alike (p q : MojJsonParser) : Prop where
  top : q.top = p.top
  below : q.below = p.below
  str : isText p.top.state = true ∨ p.top.state = .stateNumber → q.str = p.str
  strPos : p.top.state = .stateNull ∨ p.top.state = .stateBool ∨ p.top.state = .stateEscapeUnicode →
    q.strPos = p.strPos
  ucsChar : p.top.state = .stateEscapeUnicode → q.ucsChar = p.ucsChar
  matchTrue : p.top.state = .stateBool → q.matchTrue = p.matchTrue
  isDecimal : p.top.state = .stateNumber → q.isDecimal = p.isDecimal

inductive Outcome.Alike : Outcome → Outcome → Prop
  | consumed {p q : MojJsonParser} (h : p.Alike q) : Alike (.consumed p) (.consumed q)
  | done {p q : MojJsonParser} (h : p.Alike q) : Alike (.done p) (.done q)

namespace Alike

variable {p q : MojJsonParser}

/-- Between the parts of a value only the states are looked at. -/
theorem of_plain (hplain : isPlain p.top.state = true) (top : q.top = p.top) (below : q.below = p.below) : p.Alike q := by
  have hne : ∀ s : MojJsonState, isPlain s = false → p.top.state ≠ s := by
    rintro s hs he
    rw [he, hs] at hplain
    cases hplain
  have htext : isText p.top.state = false := by
    cases hs : isText p.top.state with
    | false => rfl
    | true => simp [isPlain, hs] at hplain
  refine ⟨top, below, ?_, ?_, fun he => absurd he (hne _ rfl), fun he => absurd he (hne _ rfl),
    fun he => absurd he (hne _ rfl)⟩
  · rintro (he | he)
    · rw [htext] at he
      cases he
    · exact absurd he (hne _ rfl)
  · rintro (he | he | he)
    · exact absurd he (hne _ rfl)
    · exact absurd he (hne _ rfl)
    · exact absurd he (hne _ rfl)

/-- In a string or a member's name the text so far is looked at as well. -/
theorem of_text (htext : isText p.top.state = true) (hne : p.top.state ≠ .stateEscapeUnicode) (top : q.top = p.top)
    (below : q.below = p.below) (str : q.str = p.str) : p.Alike q := by
  have hnot : ∀ s : MojJsonState, isText s = false → p.top.state ≠ s := by
    rintro s hs he
    rw [he, hs] at htext
    cases htext
  refine ⟨top, below, fun _ => str, ?_, fun he => absurd he hne, fun he => absurd he (hnot _ rfl),
    fun he => absurd he (hnot _ rfl)⟩
  rintro (he | he | he)
  · exact absurd he (hnot _ rfl)
  · exact absurd he (hnot _ rfl)
  · exact absurd he hne

theorem state (h : p.Alike q) {s : MojJsonState} (hs : p.top.state = s) : q.top.state = s := h.top ▸ hs

theorem goto (h : p.Alike q) {s : MojJsonState} (hs : isPlain s = true) : (p.goto s).Alike (q.goto s) :=
  of_plain hs (by simp [MojJsonParser.goto, h.top]) h.below

theorem eatThen (h : p.Alike q) {s : MojJsonState} (hs : s ≠ .stateEatWhitespace) :
    (p.eatThen s hs).Alike (q.eatThen s hs) := of_plain rfl rfl h.below

theorem countLine (h : p.Alike q) (c : MojByte) : (p.countLine c).Alike (q.countLine c) := by
  unfold MojJsonParser.countLine
  split_ifs
  · exact ⟨h.top, h.below, h.str, h.strPos, h.ucsChar, h.matchTrue, h.isDecimal⟩
  · exact h

theorem col (h : p.Alike q) : ({ p with col := p.col + 1 } : MojJsonParser).Alike { q with col := q.col + 1 } :=
  ⟨h.top, h.below, h.str, h.strPos, h.ucsChar, h.matchTrue, h.isDecimal⟩

end Alike

theorem consumed_alike {p q : MojJsonParser} (h : p.Alike q) :
    Agree Outcome.Alike (pure (.consumed p) : Visiting τ Outcome) (pure (.consumed q)) := .pure (.consumed h)

theorem visit_alike (v : JsonVisit) {p q : MojJsonParser} (h : p.Alike q) :
    Agree Outcome.Alike (do visitor v; return Outcome.consumed p) (do visitor v; return Outcome.consumed q) :=
  (Agree.refl (visitor v)).bind fun _ _ _ => consumed_alike h

theorem nullChar_alike {p q : MojJsonParser} (h : p.Alike q) (hs : p.top.state = .stateNull) (c : MojByte) :
    Agree Outcome.Alike (nullChar visitor p c) (nullChar visitor q c) := by
  have hpos := h.strPos (.inl hs)
  simp only [nullChar, hpos]
  split_ifs
  · exact .throw _
  · exact visit_alike visitor _ (Alike.of_plain rfl rfl h.below)
  · exact consumed_alike ⟨h.top, h.below, h.str, fun _ => rfl, h.ucsChar, h.matchTrue, h.isDecimal⟩

theorem boolChar_alike {p q : MojJsonParser} (h : p.Alike q) (hs : p.top.state = .stateBool) (c : MojByte) :
    Agree Outcome.Alike (boolChar visitor p c) (boolChar visitor q c) := by
  have hpos := h.strPos (.inr (.inl hs))
  have hmatch := h.matchTrue hs
  simp only [boolChar, hpos, hmatch]
  generalize (if p.matchTrue = true then MojJsonTrueString else MojJsonFalseString) = matchStr
  split_ifs
  · exact .throw _
  · exact visit_alike visitor _ (Alike.of_plain rfl rfl h.below)
  · exact consumed_alike ⟨h.top, h.below, h.str, fun _ => rfl, h.ucsChar, fun _ => rfl, h.isDecimal⟩

theorem startChar_alike {p q : MojJsonParser} (h : p.Alike q) (c : MojByte) :
    Agree Outcome.Alike (startChar visitor p c) (startChar visitor q c) := by
  have htop : ∀ s, (q.goto s).top = (p.goto s).top := fun s => by simp [goto, h.top]
  simp only [startChar]
  split_ifs
  · exact visit_alike visitor _ (h.eatThen _)
  · exact visit_alike visitor _ (h.eatThen _)
  · exact nullChar_alike visitor (p := { p.goto .stateNull with strPos := 0 }) (q := { q.goto .stateNull with strPos := 0 })
      ⟨htop _, h.below, by simp [goto, isText], fun _ => rfl, by simp [goto], by simp [goto], by simp [goto]⟩ rfl c
  · exact consumed_alike (.of_text rfl (by simp [goto]) (htop _) h.below rfl)
  · exact boolChar_alike visitor (p := { p.goto .stateBool with strPos := 0, matchTrue := _ })
      (q := { q.goto .stateBool with strPos := 0, matchTrue := _ })
      ⟨htop _, h.below, by simp [goto, isText], fun _ => rfl, by simp [goto], fun _ => rfl, by simp [goto]⟩ rfl c
  · exact consumed_alike
      ⟨htop _, h.below, fun _ => rfl, by simp [goto, numberChar, append], by simp [goto, numberChar, append],
        by simp [goto, numberChar, append], fun _ => rfl⟩
  · exact consumed_alike h
  · exact .throw _

/-- What an escape goes back to is a string, or looks at no member. -/
theorem alike_goBack {p q : MojJsonParser} (hs : p.Sound) (top : q.top = p.top)
    (below : q.below = p.below) (str : q.str = p.str) (cs : List MojByte) :
    ((p.append cs).goto p.top.savedState).Alike ((q.append cs).goto q.top.savedState) := by
  have htop : ((q.append cs).goto q.top.savedState).top = ((p.append cs).goto p.top.savedState).top := by
    simp [goto, append, top]
  rcases hs.top with hplain | ⟨-, hback⟩
  · exact .of_plain hplain htop below
  · refine ⟨htop, below, fun _ => congrArg (· ++ cs) str, ?_, ?_, ?_, ?_⟩
    all_goals
      rcases hback with hback | hback
      · simp [goto, hback]
      · simp [goto, hback]

theorem stringEscapeChar_alike {p q : MojJsonParser} (h : p.Alike q) (hs : p.Sound) (hstate : p.top.state = .stateStringEscape)
    (c : MojByte) : Agree Outcome.Alike (stringEscapeChar p c : Visiting τ Outcome) (stringEscapeChar q c) := by
  have htext : isText p.top.state = true := by rw [hstate]; rfl
  simp only [stringEscapeChar]
  split_ifs
  · exact consumed_alike ⟨by simp [goto, h.top], h.below, fun _ => h.str (.inl htext), fun _ => rfl, fun _ => rfl,
      by simp [goto], by simp [goto]⟩
  · cases escapeChar c with
    | none => exact .throw _
    | some e => exact consumed_alike (alike_goBack hs h.top h.below (h.str (.inl htext)) [e])

theorem escapeUnicodeChar_alike {p q : MojJsonParser} (h : p.Alike q) (hs : p.Sound)
    (hstate : p.top.state = .stateEscapeUnicode) (c : MojByte) :
    Agree Outcome.Alike (escapeUnicodeChar p c : Visiting τ Outcome) (escapeUnicodeChar q c) := by
  have htext : isText p.top.state = true := by rw [hstate]; rfl
  have hpos := h.strPos (.inr (.inr hstate))
  have hucs := h.ucsChar hstate
  simp only [escapeUnicodeChar, hpos, hucs]
  split_ifs
  · exact .throw _
  · exact consumed_alike (alike_goBack (p := { p with strPos := p.strPos + 1, ucsChar := _ })
      (q := { q with strPos := p.strPos + 1, ucsChar := _ }) ⟨hs.top, hs.below⟩ h.top h.below (h.str (.inl htext)) _)
  · exact consumed_alike ⟨h.top, h.below, h.str, fun _ => rfl, fun _ => rfl, h.matchTrue, h.isDecimal⟩
  · exact .throw _

theorem numberValue_alike {p q : MojJsonParser} (h : p.Alike q) (hstate : p.top.state = .stateNumber) :
    numberValue visitor q = numberValue visitor p := by
  simp only [numberValue, h.str (.inr hstate), h.isDecimal hstate]

/-- **Parsers that are alike do the same with a character.** -/
theorem redo_alike {p q : MojJsonParser} (h : p.Alike q) (hs : p.Sound) (c : MojByte) :
    Agree Outcome.Alike (redo visitor p c) (redo visitor q c) := by
  fun_induction redo visitor p c generalizing q
  case case1 hstate hc =>
    rw [redo_eatWhitespace visitor (h.state hstate), if_pos hc]
    exact consumed_alike h
  case case2 hstate hc hc' =>
    rw [redo_eatWhitespace visitor (h.state hstate), if_neg hc, if_pos hc']
    exact consumed_alike (h.goto rfl)
  case case3 p hstate hc hc' ih =>
    rw [redo_eatWhitespace visitor (h.state hstate), if_neg hc, if_neg hc', h.top]
    have hplain := hs.plain (by rw [hstate]; rfl)
    exact ih (h.goto hplain) (hs.goto (by rw [hstate]; rfl) rfl rfl)
  case case4 hstate =>
    rw [redo_start visitor (h.state hstate)]
    exact startChar_alike visitor h c
  case case5 hstate hb =>
    rw [redo_done visitor (h.state hstate) (h.below.trans hb)]
    exact .pure (.done h)
  case case6 hstate r below hb ih =>
    rw [redo_pop visitor (h.state hstate) (h.below.trans hb)]
    have hr := hs.below r (by simp [hb])
    refine ih (.of_plain ?_ rfl rfl) (hs.pop hb)
    rcases hr.1 with hwait | ⟨hwait, -⟩
    · exact hwait ▸ rfl
    · exact hwait ▸ rfl
  case case7 hstate =>
    rw [redo_null visitor (h.state hstate)]
    exact nullChar_alike visitor h hstate c
  case case8 hstate hc =>
    rw [redo_commentStart visitor (h.state hstate), if_pos hc]
    exact consumed_alike (h.goto rfl)
  case case9 hstate hc hc' =>
    rw [redo_commentStart visitor (h.state hstate), if_neg hc, if_pos hc']
    exact consumed_alike (h.goto rfl)
  case case10 hstate hc hc' =>
    rw [redo_commentStart visitor (h.state hstate), if_neg hc, if_neg hc']
    exact .throw _
  case case11 hstate =>
    rw [redo_comment visitor (h.state hstate)]
    split_ifs
    · exact consumed_alike (h.goto rfl)
    · exact consumed_alike h
  case case12 hstate =>
    rw [redo_commentEol visitor (h.state hstate)]
    split_ifs
    · exact consumed_alike (h.goto rfl)
    · exact consumed_alike h
  case case13 hstate hc =>
    rw [redo_commentEnd visitor (h.state hstate), if_pos hc]
    exact consumed_alike (h.goto rfl)
  case case14 hstate hc hc' =>
    rw [redo_commentEnd visitor (h.state hstate), if_neg hc, if_pos hc']
    exact consumed_alike (h.goto rfl)
  case case15 hstate hc hc' =>
    rw [redo_commentEnd visitor (h.state hstate), if_neg hc, if_neg hc']
    exact consumed_alike (h.goto rfl)
  case case16 hstate hc =>
    rw [redo_string visitor (h.state hstate), if_pos hc, h.str (.inl (by rw [hstate]; rfl))]
    exact visit_alike visitor _ (h.eatThen _)
  case case17 hstate hc hc' =>
    rw [redo_string visitor (h.state hstate), if_neg hc, if_pos hc']
    have hstr := h.str (.inl (by rw [hstate]; rfl))
    exact consumed_alike (.of_text rfl (by simp [goSaving]) rfl h.below hstr)
  case case18 hstate hc hc' =>
    rw [redo_string visitor (h.state hstate), if_neg hc, if_neg hc']
    have hstr := h.str (.inl (by rw [hstate]; rfl))
    exact consumed_alike ⟨h.top, h.below, fun _ => congrArg (· ++ [c]) hstr, h.strPos, h.ucsChar, h.matchTrue, h.isDecimal⟩
  case case19 hstate =>
    rw [redo_stringEscape visitor (h.state hstate)]
    exact stringEscapeChar_alike h hs hstate c
  case case20 hstate =>
    rw [redo_escapeUnicode visitor (h.state hstate)]
    exact escapeUnicodeChar_alike h hs hstate c
  case case21 hstate =>
    rw [redo_bool visitor (h.state hstate)]
    exact boolChar_alike visitor h hstate c
  case case22 hstate hc =>
    rw [redo_number visitor (h.state hstate), if_pos hc]
    have hstr := h.str (.inr hstate)
    exact consumed_alike ⟨h.top, h.below, fun _ => congrArg (· ++ [c]) hstr, h.strPos, h.ucsChar, h.matchTrue,
      fun _ => congrArg (· || isDecimalChar c) (h.isDecimal hstate)⟩
  case case23 p hstate hc ih =>
    rw [redo_number visitor (h.state hstate), if_neg hc, numberValue_alike visitor h hstate]
    exact (Agree.refl _).bind fun _ _ _ => ih (h.eatThen _) (hs.saving rfl rfl)
  case case24 hstate hc =>
    rw [redo_array visitor (h.state hstate), if_pos hc]
    exact visit_alike visitor _ (h.eatThen _)
  case case25 p hstate hc hd =>
    rw [redo_array visitor (h.state hstate), if_neg hc, if_pos (by rwa [depth, h.below])]
    exact .throw _
  case case26 p hstate hc hd ih =>
    rw [redo_array visitor (h.state hstate), if_neg hc, if_neg (by rwa [depth, h.below])]
    have harray : (p.goto .stateArraySep).Sound := hs.goto (by rw [hstate]; rfl) rfl rfl
    exact ih (.of_plain rfl rfl (by simp [pushed, goto, h.top, h.below])) (harray.pushed rfl (.inl rfl))
  case case27 hstate hc =>
    rw [redo_arraySep visitor (h.state hstate), if_pos hc]
    exact visit_alike visitor _ (h.eatThen _)
  case case28 hstate hc hc' =>
    rw [redo_arraySep visitor (h.state hstate), if_neg hc, if_pos hc']
    exact consumed_alike (h.eatThen _)
  case case29 hstate hc hc' =>
    rw [redo_arraySep visitor (h.state hstate), if_neg hc, if_neg hc']
    exact .throw _
  case case30 hstate hc =>
    rw [redo_objFieldStart visitor (h.state hstate), if_pos hc]
    exact visit_alike visitor _ (h.eatThen _)
  case case31 hstate hc hc' =>
    rw [redo_objFieldStart visitor (h.state hstate), if_neg hc, if_pos hc']
    exact consumed_alike (.of_text rfl (by simp [goto]) (by simp [goto, h.top]) h.below rfl)
  case case32 hstate hc hc' =>
    rw [redo_objFieldStart visitor (h.state hstate), if_neg hc, if_neg hc']
    exact .throw _
  case case33 hstate hc =>
    rw [redo_objField visitor (h.state hstate), if_pos hc, h.str (.inl (by rw [hstate]; rfl))]
    exact visit_alike visitor _ (h.eatThen _)
  case case34 hstate hc hc' =>
    rw [redo_objField visitor (h.state hstate), if_neg hc, if_pos hc']
    have hstr := h.str (.inl (by rw [hstate]; rfl))
    exact consumed_alike (.of_text rfl (by simp [goSaving]) rfl h.below hstr)
  case case35 hstate hc hc' =>
    rw [redo_objField visitor (h.state hstate), if_neg hc, if_neg hc']
    have hstr := h.str (.inl (by rw [hstate]; rfl))
    exact consumed_alike ⟨h.top, h.below, fun _ => congrArg (· ++ [c]) hstr, h.strPos, h.ucsChar, h.matchTrue, h.isDecimal⟩
  case case36 hstate hc =>
    rw [redo_objFieldEnd visitor (h.state hstate), if_pos hc]
    exact consumed_alike (h.eatThen _)
  case case37 hstate hc =>
    rw [redo_objFieldEnd visitor (h.state hstate), if_neg hc]
    exact .throw _
  case case38 hstate hd =>
    rw [redo_objValue visitor (h.state hstate), if_pos (by rwa [depth, h.below])]
    exact .throw _
  case case39 hstate hd ih =>
    rw [redo_objValue visitor (h.state hstate), if_neg (by rwa [depth, h.below])]
    exact ih (.of_plain rfl rfl (by simp [pushed, MojJsonParser.eatThen, goSaving, h.below]))
      (Sound.pushed (hs.saving rfl rfl) rfl (.inr ⟨rfl, rfl⟩))
  case case40 hstate hc =>
    rw [redo_objSep visitor (h.state hstate), if_pos hc]
    exact visit_alike visitor _ (h.eatThen _)
  case case41 hstate hc hc' =>
    rw [redo_objSep visitor (h.state hstate), if_neg hc, if_pos hc']
    exact consumed_alike (h.eatThen _)
  case case42 hstate hc hc' =>
    rw [redo_objSep visitor (h.state hstate), if_neg hc, if_neg hc']
    exact .throw _

/-- The same of a piece of a text; also that a parser stays sound. -/
theorem parseChunk_alike {p q : MojJsonParser} (h : p.Alike q) (hs : p.Sound) (chars : List MojByte) :
    Agree (fun r r' => r.1.Alike r'.1 ∧ r.2 = r'.2) (parseChunk visitor p chars) (parseChunk visitor q chars) := by
  induction chars generalizing p q with
  | nil => exact .pure ⟨h, rfl⟩
  | cons c chars ih =>
    rw [parseChunk_cons, parseChunk_cons]
    intro t
    have hredo := redo_alike visitor (h.countLine c) (hs.countLine c) c t
    have hsound := redo_sound visitor (hs.countLine c) c t
    rw [Ensures.bind_apply, Ensures.bind_apply]
    rcases hx : redo visitor (p.countLine c) c t with ⟨r, t₁⟩
    rcases hy : redo visitor (q.countLine c) c t with ⟨r', t₂⟩
    rw [hx, hy] at hredo
    cases r with
    | error e =>
      cases r' with
      | ok b => exact hredo.elim
      | error e' => exact hredo
    | ok a =>
      cases r' with
      | error e => exact hredo.elim
      | ok b =>
        obtain ⟨hab, rfl⟩ := hredo
        have hsound' := hsound a t₁ hx
        cases hab with
        | consumed hab => exact ih hab.col ⟨hsound'.top, hsound'.below⟩ t₁
        | done hab => exact ⟨⟨hab, rfl⟩, rfl⟩

/-- Behind `begin`, without anything below, a parser is like a new one. -/
theorem alike_begin {p : MojJsonParser} (hb : p.below = []) : init.begin.Alike p.begin := .of_plain rfl rfl hb

theorem Alike.finished {p q : MojJsonParser} (h : p.Alike q) : q.finished = p.finished := by
  simp [MojJsonParser.finished, depth, h.top, h.below]

theorem parseEnd_alike {p q : MojJsonParser} (h : p.Alike q) (hs : p.Sound) :
    Agree Alike (parseEnd visitor p) (parseEnd visitor q) :=
  (parseChunk_alike visitor h hs [0]).bind fun _ _ hr => .pure hr.1

/-! ## Where a value may begin -/

def IsConsumed : Outcome → Prop
  | .consumed _ => True
  | .done _ => False

theorem consumed_isConsumed (p : MojJsonParser) :
    Ensures (pure (.consumed p) : Visiting τ Outcome) IsConsumed := .pure trivial

theorem visit_isConsumed (v : JsonVisit) (p : MojJsonParser) :
    Ensures (do visitor v; return Outcome.consumed p) IsConsumed := (Ensures.top _).bind fun _ _ => .pure trivial

theorem nullChar_isConsumed (p : MojJsonParser) (c : MojByte) : Ensures (nullChar visitor p c) IsConsumed := by
  simp only [nullChar]
  split_ifs
  · exact .throw _
  · exact visit_isConsumed visitor _ _
  · exact consumed_isConsumed _

theorem boolChar_isConsumed (p : MojJsonParser) (c : MojByte) : Ensures (boolChar visitor p c) IsConsumed := by
  simp only [boolChar]
  generalize (if p.matchTrue = true then MojJsonTrueString else MojJsonFalseString) = matchStr
  split_ifs
  · exact .throw _
  · exact visit_isConsumed visitor _ _
  · exact consumed_isConsumed _

theorem startChar_isConsumed (p : MojJsonParser) (c : MojByte) : Ensures (startChar visitor p c) IsConsumed := by
  simp only [startChar]
  split_ifs
  · exact visit_isConsumed visitor _ _
  · exact visit_isConsumed visitor _ _
  · exact nullChar_isConsumed visitor _ c
  · exact consumed_isConsumed _
  · exact boolChar_isConsumed visitor _ c
  · exact consumed_isConsumed _
  · exact consumed_isConsumed _
  · exact .throw _

theorem redo_startRec {p : MojJsonParser} (h : p.top = startRec) (c : MojByte) :
    Ensures (redo visitor p c) IsConsumed := by
  have hstate : p.top.state = .stateEatWhitespace := by rw [h]; rfl
  have hsaved : p.top.savedState = .stateStart := by rw [h]; rfl
  rw [redo_eatWhitespace visitor hstate]
  split_ifs
  · exact consumed_isConsumed p
  · exact consumed_isConsumed _
  · rw [hsaved, redo_start visitor rfl]
    exact startChar_isConsumed visitor _ c

theorem parseChunk_length (p : MojJsonParser) (chars : List MojByte) :
    Ensures (parseChunk visitor p chars) fun r => r.2.length ≤ chars.length := by
  induction chars generalizing p with
  | nil => exact .pure le_rfl
  | cons c chars ih =>
    rw [parseChunk_cons]
    refine (Ensures.top _).bind fun o _ => ?_
    cases o with
    | consumed p' => exact (ih _).mono fun r hr => hr.trans (Nat.le_succ _)
    | done p' => exact .pure le_rfl

/-- Where a value may begin, what is left over is shorter. -/
theorem parseChunk_start {p : MojJsonParser} (h : p.top = startRec) {chars : List MojByte} (hne : chars ≠ []) :
    Ensures (parseChunk visitor p chars) fun r => r.2.length < chars.length := by
  obtain ⟨c, chars, rfl⟩ := List.exists_cons_of_ne_nil hne
  have hline : (p.countLine c).top = startRec := by
    unfold countLine
    split_ifs
    · exact h
    · exact h
  rw [parseChunk_cons]
  refine (redo_startRec visitor hline c).bind fun o ho => ?_
  cases o with
  | consumed p' => exact (parseChunk_length visitor _ chars).mono fun r hr => Nat.lt_succ_of_le hr
  | done p' => exact ho.elim

/-! ## The zero of `end` -/

theorem finished_of_state {p : MojJsonParser} {s : MojJsonState} (h : p.top.state = s) (hs : s ≠ .stateFinish) :
    p.finished = false := by
  simp [finished, h, hs]

theorem redo_zero_startRec {p : MojJsonParser} (h : p.top = startRec) :
    ∃ q, q.finished = false ∧ redo visitor p 0 = pure (.consumed q) := by
  have hstate : p.top.state = .stateEatWhitespace := by rw [h]; rfl
  have hsaved : p.top.savedState = .stateStart := by rw [h]; rfl
  refine ⟨p.goto .stateStart, rfl, ?_⟩
  rw [redo_eatWhitespace visitor hstate, if_neg (by decide), if_neg (by decide), hsaved, redo_start visitor rfl]
  rfl

/-- Where a value may begin, the zero of `end` is taken and none has begun. -/
theorem parseEnd_startRec {p : MojJsonParser} (h : p.top = startRec) :
    ∃ q, q.finished = false ∧ parseEnd visitor p = pure q := by
  obtain ⟨q, hq, hredo⟩ := redo_zero_startRec visitor h
  have hline : p.countLine 0 = p := if_neg (by decide)
  refine ⟨{ q with col := q.col + 1 }, hq, ?_⟩
  rw [parseEnd, parseChunk_cons, hline, hredo]
  rfl

end MojJsonParser

end Db8
