import Db8.Core.MojJsonParser

/-!
# Core.MojJsonParserEnd

Where a text may end.

* `redo_silent`  — what the visitor answers changes nothing, unless it is an error.
* `Sound`        — what holds of the records of the parser at any time.
* `Whole`        — the text read so far is a value to its end, but for a number that may go on.
* `Whole.chunk`  — whatever comes behind a value does not change that.
* `finish_fails` — where the text is no whole value, its end is an error.
-/

namespace Db8

open Lib

namespace MojJsonParser

variable {τ : Type} (visitor : JsonVisit → Visiting τ Unit)

def Outcome.parser : Outcome → MojJsonParser
  | .consumed p => p
  | .done p => p

/-- A record of an array or an object, while one of its values is read. -/
def Waiting (r : MojJsonStackRec) : Prop :=
  r.state = .stateArraySep ∨ r.state = .stateEatWhitespace ∧ r.savedState = .stateObjSep

/-- In a string or a property name. -/
def isText (s : MojJsonState) : Bool :=
  s = .stateString ∨ s = .stateObjField ∨ s = .stateStringEscape ∨ s = .stateEscapeUnicode

/-- Between the parts of a value. -/
def isPlain (s : MojJsonState) : Bool := ¬(isText s ∨ s = .stateNull ∨ s = .stateBool ∨ s = .stateNumber)

/-- In a string it is the string that is gone back to, else a state between the parts of a value; under the top are arrays and
objects. -/
structure Sound (p : MojJsonParser) : Prop where
  top : isPlain p.top.savedState = true ∨
    isText p.top.state = true ∧ (p.top.savedState = .stateString ∨ p.top.savedState = .stateObjField)
  below : ∀ r ∈ p.below, Waiting r ∧ isPlain r.savedState = true

/-- White space, or a comment. -/
def isBlank (s : MojJsonState) : Bool :=
  s = .stateEatWhitespace ∨ s = .stateCommentStart ∨ s = .stateComment ∨ s = .stateCommentEol ∨ s = .stateCommentEnd

/-- Behind the value, or in a number that is all of the value so far. -/
structure Whole (p : MojJsonParser) : Prop where
  below : p.below = []
  state : p.top.state = .stateNumber ∨ p.top.state = .stateFinish ∨ isBlank p.top.state ∧ p.top.savedState = .stateFinish

/-! ## Comments -/

theorem redo_commentStart {p : MojJsonParser} (h : p.top.state = .stateCommentStart) (c : MojByte) :
    redo visitor p c =
      if c = ch '*' then pure (.consumed (p.goto .stateComment))
      else if c = ch '/' then pure (.consumed (p.goto .stateCommentEol))
      else throw .jsonParseComment := by
  rw [redo]
  split <;> first | rfl | (rename_i hs; cases h.symm.trans hs)

theorem redo_comment {p : MojJsonParser} (h : p.top.state = .stateComment) (c : MojByte) :
    redo visitor p c = pure (.consumed (if c = ch '*' then p.goto .stateCommentEnd else p)) := by
  rw [redo]
  split <;> first | rfl | (rename_i hs; cases h.symm.trans hs)

theorem redo_commentEol {p : MojJsonParser} (h : p.top.state = .stateCommentEol) (c : MojByte) :
    redo visitor p c = pure (.consumed (if c = newline then p.goto .stateEatWhitespace else p)) := by
  rw [redo]
  split <;> first | rfl | (rename_i hs; cases h.symm.trans hs)

theorem redo_commentEnd {p : MojJsonParser} (h : p.top.state = .stateCommentEnd) (c : MojByte) :
    redo visitor p c =
      if c = ch '/' then pure (.consumed (p.goto .stateEatWhitespace))
      else if c = ch '*' then pure (.consumed (p.goto .stateCommentEnd))
      else pure (.consumed (p.goto .stateComment)) := by
  rw [redo]
  split <;> first | rfl | (rename_i hs; cases h.symm.trans hs)

/-! ## The visitor only listens -/

/-- A visitor that takes every call. -/
def silent : JsonVisit → Visiting Unit Unit := fun _ => pure ()

theorem visit_silent (v : JsonVisit) (o : Outcome) :
    Ensures (do visitor v; return o) fun o' =>
      (do silent v; return o : Visiting Unit Outcome) () = (.ok o', ()) :=
  (Ensures.top (visitor v)).bind fun _ _ => .pure rfl

theorem nullChar_silent (p : MojJsonParser) (c : MojByte) :
    Ensures (nullChar visitor p c) fun o => nullChar silent p c () = (.ok o, ()) := by
  simp only [nullChar]
  split_ifs
  · exact .throw _
  · exact visit_silent visitor _ _
  · exact .pure rfl

theorem boolChar_silent (p : MojJsonParser) (c : MojByte) :
    Ensures (boolChar visitor p c) fun o => boolChar silent p c () = (.ok o, ()) := by
  simp only [boolChar]
  generalize (if p.matchTrue = true then MojJsonTrueString else MojJsonFalseString) = matchStr
  split_ifs
  · exact .throw _
  · exact visit_silent visitor _ _
  · exact .pure rfl

theorem startChar_silent (p : MojJsonParser) (c : MojByte) :
    Ensures (startChar visitor p c) fun o => startChar silent p c () = (.ok o, ()) := by
  simp only [startChar]
  split_ifs
  · exact visit_silent visitor _ _
  · exact visit_silent visitor _ _
  · exact nullChar_silent visitor _ c
  · exact .pure rfl
  · exact boolChar_silent visitor _ c
  · exact .pure rfl
  · exact .pure rfl
  · exact .throw _

/-- A call without an effect of its own is the same for every visitor. -/
theorem stringEscapeChar_silent (p : MojJsonParser) (c : MojByte) :
    Ensures (stringEscapeChar p c : Visiting τ Outcome) fun o =>
      (stringEscapeChar p c : Visiting Unit Outcome) () = (.ok o, ()) := by
  simp only [stringEscapeChar]
  split_ifs
  · exact .pure rfl
  · cases escapeChar c with
    | none => exact .throw _
    | some e => exact .pure rfl

theorem escapeUnicodeChar_silent (p : MojJsonParser) (c : MojByte) :
    Ensures (escapeUnicodeChar p c : Visiting τ Outcome) fun o =>
      (escapeUnicodeChar p c : Visiting Unit Outcome) () = (.ok o, ()) := by
  simp only [escapeUnicodeChar]
  split_ifs
  · exact .throw _
  · exact .pure rfl
  · exact .pure rfl
  · exact .throw _

theorem numberValue_silent (p : MojJsonParser) :
    Ensures (numberValue visitor p) fun _ => numberValue silent p () = (.ok (), ()) := by
  simp only [numberValue]
  split_ifs
  · cases MojDecimal.assign p.str with
    | error e => exact .throw _
    | ok d => exact (Ensures.top _).mono fun _ _ => rfl
  · exact (Ensures.top _).bind fun _ _ => .throw _
  · exact (Ensures.top _).bind fun _ _ => .pure rfl

/-- What the parser does next does not depend on the visitor, as long as it takes the calls. -/
theorem redo_silent (p : MojJsonParser) (c : MojByte) :
    Ensures (redo visitor p c) fun o => redo silent p c () = (.ok o, ()) := by
  fun_induction redo visitor p c
  case case1 hstate hs => exact .pure (by rw [redo_eatWhitespace silent hstate, if_pos hs]; rfl)
  case case2 hstate hs hc => exact .pure (by rw [redo_eatWhitespace silent hstate, if_neg hs, if_pos hc]; rfl)
  case case3 hstate hs hc ih => rwa [redo_eatWhitespace silent hstate, if_neg hs, if_neg hc]
  case case4 p hstate =>
    rw [redo_start silent hstate]
    exact startChar_silent visitor p c
  case case5 hstate hb => exact .pure (by rw [redo_done silent hstate hb]; rfl)
  case case6 hstate _ _ hb ih => rwa [redo_pop silent hstate hb]
  case case7 p hstate =>
    rw [redo_null silent hstate]
    exact nullChar_silent visitor p c
  case case8 hstate hc => exact .pure (by rw [redo_commentStart silent hstate, if_pos hc]; rfl)
  case case9 hstate hc hc' => exact .pure (by rw [redo_commentStart silent hstate, if_neg hc, if_pos hc']; rfl)
  case case11 hstate => exact .pure (by rw [redo_comment silent hstate]; rfl)
  case case12 hstate => exact .pure (by rw [redo_commentEol silent hstate]; rfl)
  case case13 hstate hc => exact .pure (by rw [redo_commentEnd silent hstate, if_pos hc]; rfl)
  case case14 hstate hc hc' => exact .pure (by rw [redo_commentEnd silent hstate, if_neg hc, if_pos hc']; rfl)
  case case15 hstate hc hc' => exact .pure (by rw [redo_commentEnd silent hstate, if_neg hc, if_neg hc']; rfl)
  case case16 hstate hc =>
    rw [redo_string silent hstate, if_pos hc]
    exact visit_silent visitor _ _
  case case17 hstate hc hc' => exact .pure (by rw [redo_string silent hstate, if_neg hc, if_pos hc']; rfl)
  case case18 hstate hc hc' => exact .pure (by rw [redo_string silent hstate, if_neg hc, if_neg hc']; rfl)
  case case19 p hstate =>
    rw [redo_stringEscape silent hstate]
    exact stringEscapeChar_silent p c
  case case20 p hstate =>
    rw [redo_escapeUnicode silent hstate]
    exact escapeUnicodeChar_silent p c
  case case21 p hstate =>
    rw [redo_bool silent hstate]
    exact boolChar_silent visitor p c
  case case22 hstate hc => exact .pure (by rw [redo_number silent hstate, if_pos hc]; rfl)
  case case23 p hstate hc ih =>
    rw [redo_number silent hstate, if_neg hc]
    refine (numberValue_silent visitor p).bind fun _ hvalue => ih.mono fun o ho => ?_
    rw [Ensures.bind_apply, hvalue]
    exact ho
  case case24 hstate hc =>
    rw [redo_array silent hstate, if_pos hc]
    exact visit_silent visitor _ _
  case case26 hstate hc hd ih => rwa [redo_array silent hstate, if_neg hc, if_neg hd]
  case case27 hstate hc =>
    rw [redo_arraySep silent hstate, if_pos hc]
    exact visit_silent visitor _ _
  case case28 hstate hc hc' => exact .pure (by rw [redo_arraySep silent hstate, if_neg hc, if_pos hc']; rfl)
  case case30 hstate hc =>
    rw [redo_objFieldStart silent hstate, if_pos hc]
    exact visit_silent visitor _ _
  case case31 hstate hc hc' => exact .pure (by rw [redo_objFieldStart silent hstate, if_neg hc, if_pos hc']; rfl)
  case case33 hstate hc =>
    rw [redo_objField silent hstate, if_pos hc]
    exact visit_silent visitor _ _
  case case34 hstate hc hc' => exact .pure (by rw [redo_objField silent hstate, if_neg hc, if_pos hc']; rfl)
  case case35 hstate hc hc' => exact .pure (by rw [redo_objField silent hstate, if_neg hc, if_neg hc']; rfl)
  case case36 hstate hc => exact .pure (by rw [redo_objFieldEnd silent hstate, if_pos hc]; rfl)
  case case39 hstate hd ih => rwa [redo_objValue silent hstate, if_neg hd]
  case case40 hstate hc =>
    rw [redo_objSep silent hstate, if_pos hc]
    exact visit_silent visitor _ _
  case case41 hstate hc hc' => exact .pure (by rw [redo_objSep silent hstate, if_neg hc, if_pos hc']; rfl)
  all_goals exact .throw _

theorem parseChunk_silent (p : MojJsonParser) (chars : List MojByte) :
    Ensures (parseChunk visitor p chars) fun r => parseChunk silent p chars () = (.ok r, ()) := by
  induction chars generalizing p with
  | nil => exact .pure rfl
  | cons c chars ih =>
    rw [parseChunk_cons, parseChunk_cons]
    refine (redo_silent visitor (p.countLine c) c).bind fun o ho => ?_
    cases o with
    | consumed p' =>
      refine (ih _).mono fun r hr => ?_
      rw [Ensures.bind_apply, ho]
      exact hr
    | done p' =>
      refine .pure ?_
      rw [Ensures.bind_apply, ho]
      rfl

/-! ## Sound parsers -/

namespace Sound

variable {p : MojJsonParser}

theorem init : MojJsonParser.init.begin.Sound := ⟨.inl rfl, by simp [MojJsonParser.begin, MojJsonParser.init]⟩

theorem plain (h : p.Sound) (hs : isText p.top.state = false) : isPlain p.top.savedState = true := by
  refine h.top.resolve_right fun htext => ?_
  rw [hs] at htext
  cases htext.1

theorem saved_ne_number (h : p.Sound) : p.top.savedState ≠ .stateNumber := by
  intro he
  simpa [he, isPlain, isText] using h.top

/-- To another state, with the same one to go back to. -/
theorem goto (h : p.Sound) (hs : isText p.top.state = false) {q : MojJsonParser}
    (hsaved : q.top.savedState = p.top.savedState) (hbelow : q.below = p.below) : q.Sound :=
  ⟨.inl (hsaved ▸ h.plain hs), hbelow ▸ h.below⟩

theorem saving (h : p.Sound) {q : MojJsonParser} (hplain : isPlain q.top.savedState = true) (hbelow : q.below = p.below) :
    q.Sound := ⟨.inl hplain, hbelow ▸ h.below⟩

/-- In a string, or back in it. -/
theorem text (h : p.Sound) {q : MojJsonParser} (hstate : isText q.top.state = true ∨ q.top.state = p.top.savedState)
    (hsaved : q.top.savedState = p.top.savedState) (hbelow : q.below = p.below) : q.Sound := by
  refine ⟨?_, hbelow ▸ h.below⟩
  rw [hsaved]
  refine h.top.imp_right fun ⟨_, hback⟩ => ⟨?_, hback⟩
  rcases hstate with hstate | hstate
  · exact hstate
  · rcases hback with hback | hback
    · rw [hstate, hback]
      rfl
    · rw [hstate, hback]
      rfl

theorem pushed (h : p.Sound) (hs : isText p.top.state = false) (hw : Waiting p.top) : p.pushed.Sound := by
  refine ⟨.inl rfl, fun r hr => ?_⟩
  rcases List.mem_cons.mp hr with rfl | hr
  · exact ⟨hw, h.plain hs⟩
  · exact h.below r hr

theorem pop (h : p.Sound) {r : MojJsonStackRec} {below : List MojJsonStackRec} (hb : p.below = r :: below) :
    ({ p with top := r, below := below } : MojJsonParser).Sound :=
  ⟨.inl (h.below r (by simp [hb])).2, fun t ht => h.below t (by simp [hb, ht])⟩

end Sound

theorem consumed_sound {p : MojJsonParser} (h : p.Sound) :
    Ensures (pure (.consumed p) : Visiting τ Outcome) fun o => o.parser.Sound := .pure h

theorem visit_sound (v : JsonVisit) {p : MojJsonParser} (h : p.Sound) :
    Ensures (do visitor v; return Outcome.consumed p) fun o => o.parser.Sound :=
  (Ensures.top (visitor v)).bind fun _ _ => consumed_sound h

theorem nullChar_sound {p : MojJsonParser} (h : p.Sound) (hs : isText p.top.state = false) (c : MojByte) :
    Ensures (nullChar visitor p c) fun o => o.parser.Sound := by
  simp only [nullChar]
  split_ifs
  · exact .throw _
  · exact visit_sound visitor _ (h.saving rfl rfl)
  · exact consumed_sound (h.goto hs rfl rfl)

theorem boolChar_sound {p : MojJsonParser} (h : p.Sound) (hs : isText p.top.state = false) (c : MojByte) :
    Ensures (boolChar visitor p c) fun o => o.parser.Sound := by
  simp only [boolChar]
  generalize (if p.matchTrue = true then MojJsonTrueString else MojJsonFalseString) = matchStr
  split_ifs
  · exact .throw _
  · exact visit_sound visitor _ (h.saving rfl rfl)
  · exact consumed_sound (h.goto hs rfl rfl)

theorem startChar_sound {p : MojJsonParser} (h : p.Sound) (hs : isText p.top.state = false) (c : MojByte) :
    Ensures (startChar visitor p c) fun o => o.parser.Sound := by
  simp only [startChar]
  split_ifs
  · exact visit_sound visitor _ (h.saving rfl rfl)
  · exact visit_sound visitor _ (h.saving rfl rfl)
  · exact nullChar_sound visitor (p := { p.goto .stateNull with strPos := 0 }) (h.goto hs rfl rfl) rfl c
  · exact consumed_sound (h.goto hs rfl rfl)
  · exact boolChar_sound visitor (p := { p.goto .stateBool with strPos := 0, matchTrue := _ }) (h.goto hs rfl rfl) rfl c
  · exact consumed_sound (h.goto hs rfl rfl)
  · exact consumed_sound h
  · exact .throw _

theorem stringEscapeChar_sound {p : MojJsonParser} (h : p.Sound) (c : MojByte) :
    Ensures (stringEscapeChar p c : Visiting τ Outcome) fun o => o.parser.Sound := by
  simp only [stringEscapeChar]
  split_ifs
  · exact consumed_sound (h.text (.inl rfl) rfl rfl)
  · split
    · exact .throw _
    · exact consumed_sound (h.text (.inr rfl) rfl rfl)

theorem escapeUnicodeChar_sound {p : MojJsonParser} (h : p.Sound) (hs : isText p.top.state = true) (c : MojByte) :
    Ensures (escapeUnicodeChar p c : Visiting τ Outcome) fun o => o.parser.Sound := by
  simp only [escapeUnicodeChar]
  split_ifs
  · exact .throw _
  · exact consumed_sound (h.text (.inr rfl) rfl rfl)
  · exact consumed_sound (h.text (.inl hs) rfl rfl)
  · exact .throw _

theorem redo_sound {p : MojJsonParser} (h : p.Sound) (c : MojByte) :
    Ensures (redo visitor p c) fun o => o.parser.Sound := by
  fun_induction redo visitor p c
  case case3 hstate _ _ ih => exact ih (h.goto (by rw [hstate]; rfl) rfl rfl)
  case case4 hstate => exact startChar_sound visitor h (by rw [hstate]; rfl) c
  case case5 => exact .pure h
  case case6 hb ih => exact ih (h.pop hb)
  case case7 hstate => exact nullChar_sound visitor h (by rw [hstate]; rfl) c
  case case11 hstate => exact consumed_sound (h.goto (by rw [hstate]; rfl) (by split_ifs <;> rfl) (by split_ifs <;> rfl))
  case case12 hstate => exact consumed_sound (h.goto (by rw [hstate]; rfl) (by split_ifs <;> rfl) (by split_ifs <;> rfl))
  case case17 => exact consumed_sound ⟨.inr ⟨rfl, .inl rfl⟩, h.below⟩
  case case18 hstate _ _ => exact consumed_sound (h.text (.inl (by simp [append, hstate, isText])) rfl rfl)
  case case19 => exact stringEscapeChar_sound h c
  case case20 hstate => exact escapeUnicodeChar_sound h (by rw [hstate]; rfl) c
  case case21 hstate => exact boolChar_sound visitor h (by rw [hstate]; rfl) c
  case case23 p _ _ ih => exact (Ensures.top (numberValue visitor p)).bind fun _ _ => ih (h.saving rfl rfl)
  case case26 p hstate _ _ ih =>
    have harray : (p.goto .stateArraySep).Sound := h.goto (by rw [hstate]; rfl) rfl rfl
    exact ih (harray.pushed rfl (.inl rfl))
  case case34 => exact consumed_sound ⟨.inr ⟨rfl, .inr rfl⟩, h.below⟩
  case case35 hstate _ _ => exact consumed_sound (h.text (.inl (by simp [append, hstate, isText])) rfl rfl)
  case case39 ih =>
    exact ih (Sound.pushed (h.saving rfl rfl) rfl (.inr ⟨rfl, rfl⟩))
  all_goals
    first
      | exact .throw _
      | exact consumed_sound (h.saving rfl rfl)
      | exact visit_sound visitor _ (h.saving rfl rfl)
      | (rename_i hstate _; exact consumed_sound (h.goto (by rw [hstate]; rfl) rfl rfl))
      | (rename_i hstate _ _; exact consumed_sound (h.goto (by rw [hstate]; rfl) rfl rfl))

theorem Sound.countLine {p : MojJsonParser} (h : p.Sound) (c : MojByte) : (p.countLine c).Sound := by
  unfold MojJsonParser.countLine
  split_ifs
  · exact ⟨h.top, h.below⟩
  · exact h

/-- What each character keeps, a piece of the text keeps. -/
theorem chunk_ensures {P : MojJsonParser → Prop} (hline : ∀ p c, P p → P (p.countLine c))
    (hcol : ∀ p : MojJsonParser, P p → P { p with col := p.col + 1 })
    (hredo : ∀ p c, P p → Ensures (redo visitor p c) fun o => P o.parser) {p : MojJsonParser} (h : P p)
    (chars : List MojByte) : Ensures (parseChunk visitor p chars) fun r => P r.1 := by
  induction chars generalizing p with
  | nil => exact .pure h
  | cons c chars ih =>
    rw [parseChunk_cons]
    refine (hredo _ c (hline p c h)).bind fun o ho => ?_
    cases o with
    | consumed p' => exact ih (hcol p' ho)
    | done p' => exact .pure ho

theorem Sound.chunk {p : MojJsonParser} (h : p.Sound) (chars : List MojByte) :
    Ensures (parseChunk visitor p chars) fun r => r.1.Sound :=
  chunk_ensures visitor (fun _ c h => h.countLine c) (fun _ h => ⟨h.top, h.below⟩)
    (fun _ c h => redo_sound visitor h c) h chars

/-! ## Behind a value -/

theorem Whole.saved {p : MojJsonParser} (h : p.Whole) (hs : isBlank p.top.state = true) :
    p.top.savedState = .stateFinish := by
  rcases h.state with hstate | hstate | hstate
  · rw [hstate] at hs
    exact absurd hs (by decide)
  · rw [hstate] at hs
    exact absurd hs (by decide)
  · exact hstate.2

theorem Whole.goto {p : MojJsonParser} (h : p.Whole) (hs : isBlank p.top.state = true) {s : MojJsonState}
    (hblank : isBlank s = true) : (p.goto s).Whole := ⟨h.below, .inr (.inr ⟨hblank, h.saved hs⟩)⟩

/-- The states of a whole value. -/
theorem Whole.state_mem {p : MojJsonParser} (h : p.Whole) :
    p.top.state = .stateNumber ∨ p.top.state = .stateFinish ∨ isBlank p.top.state = true :=
  h.state.imp_right fun hstate => hstate.imp_right And.left

/-- Behind a value comes white space, a comment, or what is left for others. -/
theorem redo_whole {p : MojJsonParser} (h : p.Whole) (c : MojByte) :
    Ensures (redo visitor p c) fun o => o.parser.Whole := by
  fun_induction redo visitor p c
  case case1 => exact .pure h
  case case2 p hstate _ _ => exact .pure (h.goto (by rw [hstate]; rfl) rfl)
  case case3 p hstate _ _ ih => exact ih ⟨h.below, .inr (.inl (h.saved (by rw [hstate]; rfl)))⟩
  case case5 => exact .pure h
  case case6 hb _ => cases h.below.symm.trans hb
  case case8 p hstate _ => exact .pure (h.goto (by rw [hstate]; rfl) rfl)
  case case9 p hstate _ _ => exact .pure (h.goto (by rw [hstate]; rfl) rfl)
  case case10 => exact .throw _
  case case11 p hstate =>
    refine .pure ?_
    by_cases hc : c = ch '*'
    · rw [if_pos hc]
      exact h.goto (by rw [hstate]; rfl) rfl
    · rwa [if_neg hc]
  case case12 p hstate =>
    refine .pure ?_
    by_cases hc : c = newline
    · rw [if_pos hc]
      exact h.goto (by rw [hstate]; rfl) rfl
    · rwa [if_neg hc]
  case case13 p hstate _ => exact .pure (h.goto (by rw [hstate]; rfl) rfl)
  case case14 p hstate _ _ => exact .pure (h.goto (by rw [hstate]; rfl) rfl)
  case case15 p hstate _ _ => exact .pure (h.goto (by rw [hstate]; rfl) rfl)
  case case22 hstate _ => exact .pure ⟨h.below, .inl hstate⟩
  case case23 p _ _ ih =>
    exact (Ensures.top (numberValue visitor p)).bind fun _ _ => ih ⟨h.below, .inr (.inr ⟨rfl, rfl⟩)⟩
  all_goals
    have hmem := h.state_mem
    simp_all [isBlank]

theorem Whole.countLine {p : MojJsonParser} (h : p.Whole) (c : MojByte) : (p.countLine c).Whole := by
  unfold MojJsonParser.countLine
  split_ifs
  · exact ⟨h.below, h.state⟩
  · exact h

theorem Whole.chunk {p : MojJsonParser} (h : p.Whole) (chars : List MojByte) :
    Ensures (parseChunk visitor p chars) fun r => r.1.Whole :=
  chunk_ensures visitor (fun _ c h => h.countLine c) (fun _ h => ⟨h.below, h.state⟩)
    (fun _ c h => redo_whole visitor h c) h chars

/-! ## The end of a text that is no whole value -/

theorem consumed_unfinished {p : MojJsonParser} (h : p.top.state ≠ .stateFinish) :
    Ensures (pure (.consumed p) : Visiting τ Outcome) fun o => o.parser.finished = false := by
  refine .pure ?_
  simp [Outcome.parser, finished, h]

theorem visit_unfinished (v : JsonVisit) {p : MojJsonParser} (h : p.top.state ≠ .stateFinish) :
    Ensures (do visitor v; return Outcome.consumed p) fun o => o.parser.finished = false :=
  (Ensures.top (visitor v)).bind fun _ _ => consumed_unfinished h

theorem nullChar_unfinished {p : MojJsonParser} (h : p.top.state ≠ .stateFinish) (c : MojByte) :
    Ensures (nullChar visitor p c) fun o => o.parser.finished = false := by
  simp only [nullChar]
  split_ifs
  · exact .throw _
  · exact visit_unfinished visitor _ (by simp [eatThen, goSaving])
  · exact consumed_unfinished h

theorem boolChar_unfinished {p : MojJsonParser} (h : p.top.state ≠ .stateFinish) (c : MojByte) :
    Ensures (boolChar visitor p c) fun o => o.parser.finished = false := by
  simp only [boolChar]
  generalize (if p.matchTrue = true then MojJsonTrueString else MojJsonFalseString) = matchStr
  split_ifs
  · exact .throw _
  · exact visit_unfinished visitor _ (by simp [eatThen, goSaving])
  · exact consumed_unfinished h

theorem not_whole_of_below {p : MojJsonParser} (h : p.below ≠ []) : ¬p.Whole := fun hw => h hw.below

theorem not_whole_of_waiting {p : MojJsonParser} (h : Waiting p.top) : ¬p.Whole := by
  intro hw
  rcases h with h | ⟨h, h'⟩
  · simpa [h, isBlank] using hw.state
  · simpa [h, h', isBlank] using hw.state

theorem not_whole_goto_saved {p : MojJsonParser} (hs : p.Sound) (hstate : p.top.state = .stateEatWhitespace)
    (h : ¬p.Whole) : ¬(p.goto p.top.savedState).Whole := by
  intro hw
  rcases hw.state with hnumber | hfinish | ⟨hblank, hfinish⟩
  · exact hs.saved_ne_number hnumber
  · exact h ⟨hw.below, .inr (.inr ⟨by rw [hstate]; rfl, hfinish⟩)⟩
  · exact h ⟨hw.below, .inr (.inr ⟨by rw [hstate]; rfl, hfinish⟩)⟩

/-- The zero behind the text does not end a value that the text does not end. -/
theorem redo_unfinished {p : MojJsonParser} (hs : p.Sound) (h : ¬p.Whole) {c : MojByte} (hc : c = 0) :
    Ensures (redo visitor p c) fun o => o.parser.finished = false := by
  fun_induction redo visitor p c
  case case1 hstate _ => exact consumed_unfinished (by rw [hstate]; decide)
  case case3 p hstate _ _ ih =>
    exact ih (hs.goto (by rw [hstate]; rfl) rfl rfl) (not_whole_goto_saved hs hstate h)
  case case4 p hstate =>
    subst hc
    exact consumed_unfinished (by rw [hstate]; decide)
  case case5 p hstate hbelow => exact absurd ⟨hbelow, .inr (.inl hstate)⟩ h
  case case6 p _ r below hb ih =>
    exact ih (hs.pop hb) (not_whole_of_waiting (hs.below r (by simp [hb])).1)
  case case7 hstate => exact nullChar_unfinished visitor (by rw [hstate]; decide) c
  case case11 hstate => exact consumed_unfinished (by split_ifs <;> simp_all [goto])
  case case12 hstate => exact consumed_unfinished (by split_ifs <;> simp_all [goto])
  case case18 hstate _ _ => exact consumed_unfinished (by simp [append, hstate])
  case case19 =>
    subst hc
    exact .throw _
  case case20 =>
    subst hc
    exact .throw _
  case case21 hstate => exact boolChar_unfinished visitor (by rw [hstate]; decide) c
  case case22 hstate _ => exact consumed_unfinished (by simp [numberChar, append, hstate])
  case case23 p hstate _ ih =>
    refine (Ensures.top (numberValue visitor p)).bind fun _ _ => ih (hs.saving rfl rfl) ?_
    exact not_whole_of_below fun hb => h ⟨hb, .inl hstate⟩
  case case26 p hstate _ _ ih =>
    have harray : (p.goto .stateArraySep).Sound := hs.goto (by rw [hstate]; rfl) rfl rfl
    exact ih (harray.pushed rfl (.inl rfl)) (not_whole_of_below (List.cons_ne_nil _ _))
  case case35 hstate _ _ => exact consumed_unfinished (by simp [append, hstate])
  case case39 ih =>
    exact ih (Sound.pushed (hs.saving rfl rfl) rfl (.inr ⟨rfl, rfl⟩)) (not_whole_of_below (List.cons_ne_nil _ _))
  all_goals first
    | exact .throw _
    | exact consumed_unfinished (by rintro ⟨⟩)
    | exact visit_unfinished visitor _ (by rintro ⟨⟩)

/-- **A text that is no whole value ends in an error.** -/
theorem finish_fails {p : MojJsonParser} (hs : p.Sound) (h : ¬p.Whole) :
    Ensures (finish visitor p) fun _ => False := by
  have hline : p.countLine 0 = p := if_neg (by decide)
  rw [finish, parseEnd, parseChunk_cons, hline]
  refine Ensures.bind (P := fun q : MojJsonParser => q.finished = false) ?_ fun q hq => ?_
  · refine Ensures.bind (P := fun r : MojJsonParser × List MojByte => r.1.finished = false) ?_ fun r hr => .pure hr
    refine (redo_unfinished visitor hs h rfl).bind fun o ho => ?_
    cases o with
    | consumed p' => exact .pure ho
    | done p' => exact .pure ho
  · rw [if_pos (by rw [hq]; exact Bool.false_ne_true)]
    exact .throw _

/-- Behind a value the zero of `end` changes nothing. -/
theorem parseEnd_of_finished {p : MojJsonParser} (h : p.finished = true) : parseEnd visitor p = pure p := by
  have hline : p.countLine 0 = p := if_neg (by decide)
  rw [parseEnd, parseChunk_cons, hline, redo_of_finished visitor h]
  rfl

end MojJsonParser

end Db8
