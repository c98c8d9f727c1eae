import Db8.Core.MojJsonTextSpec
import Db8.Db.MojDbLoadFile

/-!
# Db.MojDbLoadFileSpec

What a load does with a file of JSON values, and with one that the parser has an error to report for behind such values.

* `JsonFile`       — JSON values, one after the other.
* `eachValue_file` — each of them is loaded, in order, once.
* `Reports`        — the parser reports an error in a text or at its end.
* `loadFile_loads` — what is loaded, and which error is returned, however the content is cut into reads.
-/

namespace Db8

open Lib MojJsonParser

/-! ## Files of JSON values -/

/-- JSON values, each with the white space behind it. -/
structure JsonFile where
  before : List JsonWs
  values : List (JsonValue × List JsonWs)

namespace JsonFile

def valuesText (values : List (JsonValue × List JsonWs)) : List MojByte :=
  values.flatMap fun x => x.1.text ++ JsonWs.text x.2

def text (f : JsonFile) : List MojByte := JsonWs.text f.before ++ valuesText f.values

/-- There is white space between numbers. -/
def Apart (values : List (JsonValue × List JsonWs)) : Prop :=
  values.IsChain fun x y => x.1.isNumber = true → y.1.isNumber = true → x.2 ≠ []

end JsonFile

namespace MojDb

variable {σ : Type} (req : LoadReq σ)

/-- Some objects, one after the other. -/
def loadAll (total : Nat) (countOut : UInt32) : List MojObject → Visiting σ UInt32
  | [] => return countOut
  | [obj] => do
    req.load obj
    return countOut + 1
  | obj :: objs => do
    req.load obj
    req.reopen (total + 1)
    loadAll (total + 1) (countOut + 1) objs

/-! ## What is built of a value -/

theorem calls_builder (vs : List JsonVisit) (b : MojObjectBuilder) :
    ∃ b', calls builderVisitor vs b = (.ok (), b') := by
  induction vs generalizing b with
  | nil => exact ⟨b, rfl⟩
  | cons v vs ih => exact ih (b.call v.toVisit)

/-- A value that is read by itself is good, and its calls build what is read. -/
theorem good_of_fromJson {v : JsonValue} {obj : MojObject} (h : MojObject.fromJson v.text = .ok obj) :
    Good 0 v ∧ ∃ b, calls builderVisitor (v.events spellEach JsonNumber.heard) MojObjectBuilder.init = (.ok (), b) ∧
      b.obj = obj := by
  have htext : JsonText.text ⟨[], v, []⟩ = v.text := by
    simp [JsonText.text, JsonWs.text]
  have hgood : Good 0 v := by
    by_contra hbad
    have hrefused := (isRefused_of_bad (t := ⟨[], v, []⟩) hbad).1 _ builderVisitor MojObjectBuilder.init
    rw [htext] at hrefused
    rw [MojObject.fromJson] at h
    split at h
    · rename_i he
      exact hrefused _ _ he
    · cases h
  refine ⟨hgood, ?_⟩
  obtain ⟨b, hb⟩ := calls_builder (v.events spellEach JsonNumber.heard) MojObjectBuilder.init
  refine ⟨b, hb, ?_⟩
  have hparse := parse_good (t := ⟨[], v, []⟩) hgood builderVisitor
  rw [htext] at hparse
  rw [MojObject.fromJson, hparse, hb] at h
  exact Except.ok.inj h

/-- Where `parse` has no error to report, `end` finishes the value. -/
theorem parseEnd_of_finish {τ : Type} {visitor : JsonVisit → Visiting τ Unit} {p : MojJsonParser} {b b' : τ}
    (h : finish visitor p b = (.ok (), b')) : ∃ q, q.finished = true ∧ parseEnd visitor p b = (.ok q, b') := by
  rw [finish, Ensures.bind_apply] at h
  rcases hend : parseEnd visitor p b with ⟨⟨e⟩ | ⟨q⟩, b₁⟩
  · rw [hend] at h
    cases h
  · rw [hend] at h
    cases hq : q.finished with
    | false =>
      simp only [hq] at h
      cases h
    | true =>
      simp only [hq] at h
      cases h
      exact ⟨q, hq, rfl⟩

theorem not_finished_of_behind {p : MojJsonParser} {ws : List JsonVisit} (h : p.Behind [] ws) : p.finished = false := by
  cases h with
  | finished h => exact finished_of_state h.state_eq nofun
  | number h _ => exact finished_of_state h.state_eq nofun

/-- Only a number begins like one. -/
theorem isNumberChar_first {v : JsonValue} (hv : v.isNumber = false) {c : MojByte} {chars : List MojByte}
    (h : v.text = c :: chars) : isNumberChar c = false := by
  have hfirst : ∀ {d : MojByte} {t : List MojByte}, v.text = d :: t → isNumberChar d = false → isNumberChar c = false := by
    intro d t hd hnumber
    rwa [(List.cons.inj (h.symm.trans hd)).1]
  cases v with
  | number n => cases hv
  | null => exact hfirst rfl (by decide)
  | bool b =>
    cases b with
    | true => exact hfirst rfl (by decide)
    | false => exact hfirst rfl (by decide)
  | string s => exact hfirst rfl (by decide)
  | array blank xs => exact hfirst rfl (by decide)
  | object blank ms => exact hfirst rfl (by decide)

section Value

variable {t : JsonText} {obj : MojObject} (h : MojObject.fromJson t.value.text = .ok obj) (total : Nat) (countOut : UInt32)

include h

/-- The last value of a content. -/
theorem eachValue_lastText : eachValue req total countOut t.text = (do
    req.load obj
    return countOut + 1) := by
  obtain ⟨hgood, b, hb, rfl⟩ := good_of_fromJson h
  obtain ⟨q, vs, ws, hq, hbehind, hev, -⟩ := eats_good hgood
  obtain ⟨b₁, hb₁⟩ := calls_builder vs MojObjectBuilder.init
  have hchunk : parseChunk builderVisitor MojJsonParser.init.begin t.text MojObjectBuilder.init = (.ok (q, []), b₁) := by
    have heats := congrFun (hq _ builderVisitor []) MojObjectBuilder.init
    rw [List.append_nil, Ensures.bind_apply, hb₁] at heats
    exact heats
  rw [← hev, calls_append, Ensures.bind_apply, hb₁] at hb
  dsimp only at hb
  rw [← hbehind.after.finish builderVisitor] at hb
  obtain ⟨p, hp, hend⟩ := parseEnd_of_finish hb
  rw [eachValue_last req (not_finished_of_behind hbehind) hchunk, lastValue, hend]
  simp [hp]

/-- A value that another one comes behind. -/
theorem eachValue_nextText {c : MojByte} (hs : isSpace c = false) (hslash : c ≠ ch '/')
    (hnumber : t.value.isNumber = false ∨ t.after ≠ [] ∨ isNumberChar c = false) (chars : List MojByte) :
    eachValue req total countOut (t.text ++ c :: chars) = (do
      req.load obj
      req.reopen (total + 1)
      eachValue req (total + 1) (countOut + 1) (c :: chars)) := by
  obtain ⟨hgood, b, hb, rfl⟩ := good_of_fromJson h
  obtain ⟨q, vs, ws, hq, hbehind, hev, hsaid⟩ := eats_good hgood
  obtain ⟨p, hp, hnext⟩ := chunk_next hbehind hs hslash (by tauto) chars builderVisitor
  refine eachValue_finished req hp (p := p) ?_
  rw [hq, hnext, ← bind_assoc, ← calls_append, hev, Ensures.bind_apply, hb]
  rfl

end Value

/-- The values behind one another. -/
theorem eachValue_values {x : JsonValue × List JsonWs} {values : List (JsonValue × List JsonWs)}
    {objs : List MojObject} {before : List JsonWs} {total : Nat} {countOut : UInt32}
    (h : List.Forall₂ (fun x obj => MojObject.fromJson x.1.text = .ok obj) (x :: values) objs)
    (hapart : JsonFile.Apart (x :: values)) :
    eachValue req total countOut (JsonWs.text before ++ JsonFile.valuesText (x :: values)) =
      loadAll req total countOut objs := by
  induction values generalizing x objs before total countOut with
  | nil =>
    obtain ⟨obj, objs, hx, hnil, rfl⟩ := List.forall₂_cons_left_iff.mp h
    obtain rfl := List.forall₂_nil_left_iff.mp hnil
    have hlast := eachValue_lastText req (t := ⟨before, x.1, x.2⟩) hx total countOut
    simpa [JsonFile.valuesText, JsonText.text, loadAll] using hlast
  | cons y values ih =>
    obtain ⟨obj, objs, hx, hrest, rfl⟩ := List.forall₂_cons_left_iff.mp h
    obtain ⟨obj', objs', -, -, hobjs⟩ := List.forall₂_cons_left_iff.mp hrest
    obtain ⟨hxy, hapart⟩ := List.isChain_cons_cons.mp hapart
    obtain ⟨c, chars, htext, hc⟩ := text_first y.1
    have hnumber : x.1.isNumber = false ∨ x.2 ≠ [] ∨ isNumberChar c = false := by
      by_cases hx : x.1.isNumber = true
      · by_cases hy : y.1.isNumber = true
        · exact .inr (.inl (hxy hx hy))
        · exact .inr (.inr (isNumberChar_first (by simpa using hy) htext))
      · exact .inl (by simpa using hx)
    have hnext := eachValue_nextText req (t := ⟨before, x.1, x.2⟩) hx total countOut hc.not_space hc.not_slash hnumber
      (chars ++ (JsonWs.text y.2 ++ JsonFile.valuesText values))
    have hvalues : JsonWs.text before ++ JsonFile.valuesText (x :: y :: values) = JsonText.text ⟨before, x.1, x.2⟩ ++
        c :: (chars ++ (JsonWs.text y.2 ++ JsonFile.valuesText values)) := by
      simp [JsonFile.valuesText, JsonText.text, htext]
    have hrest' : c :: (chars ++ (JsonWs.text y.2 ++ JsonFile.valuesText values)) =
        JsonWs.text [] ++ JsonFile.valuesText (y :: values) := by
      simp [JsonFile.valuesText, JsonWs.text, htext]
    rw [hvalues, hnext, hrest', ih hrest hapart, hobjs]
    rfl

theorem eachValue_blank (blank : List JsonWs) (total : Nat) (countOut : UInt32) :
    eachValue req total countOut (JsonWs.text blank) = pure countOut := by
  obtain ⟨q, hq, hstart⟩ := atStart_init.blank blank
  have hchunk : parseChunk builderVisitor MojJsonParser.init.begin (JsonWs.text blank) MojObjectBuilder.init =
      (.ok (q, []), MojObjectBuilder.init) := by
    have heats := congrFun (hq _ builderVisitor []) MojObjectBuilder.init
    rw [List.append_nil] at heats
    exact heats
  have hfinished : q.finished = false := finished_of_state (s := .stateEatWhitespace) (by rw [hstart.top_eq]; rfl) nofun
  obtain ⟨p, hp, hend⟩ := parseEnd_startRec builderVisitor hstart.top_eq
  have happly : parseEnd builderVisitor q MojObjectBuilder.init = (.ok p, MojObjectBuilder.init) := by
    rw [hend]
    rfl
  rw [eachValue_last req hfinished hchunk, lastValue, happly]
  simp [hp]

theorem eachValue_file {f : JsonFile} {objs : List MojObject}
    (h : List.Forall₂ (fun x obj => MojObject.fromJson x.1.text = .ok obj) f.values objs) (hapart : JsonFile.Apart f.values)
    (total : Nat) (countOut : UInt32) :
    eachValue req total countOut f.text = loadAll req total countOut objs := by
  obtain ⟨before, values⟩ := f
  cases values with
  | nil =>
    obtain rfl := List.forall₂_nil_left_iff.mp h
    have hblank := eachValue_blank req before total countOut
    simpa [JsonFile.text, JsonFile.valuesText, loadAll] using hblank
  | cons x values => exact eachValue_values req h hapart

/-! ## A text that the parser refuses -/

/-- The parser reports `e` for the text that begins here, in it or at its end. -/
def Reports (chars : List MojByte) (e : MojErr) : Prop :=
  ∃ visitor, (do
    let (p, _) ← parseChunk builderVisitor MojJsonParser.init.begin chars
    parseEnd builderVisitor p) MojObjectBuilder.init = (.error e, visitor)

theorem eachValue_reports {chars : List MojByte} {e : MojErr} (h : Reports chars e) (total : Nat) (countOut : UInt32) :
    eachValue req total countOut chars = throw e := by
  obtain ⟨visitor, h⟩ := h
  rw [Ensures.bind_apply] at h
  rcases hx : parseChunk builderVisitor MojJsonParser.init.begin chars MojObjectBuilder.init with
    ⟨⟨e'⟩ | ⟨p, rest⟩, visitor'⟩
  · rw [hx] at h
    obtain rfl := Except.error.inj (Prod.mk.inj h).1
    exact eachValue_error req hx
  · rw [hx] at h
    dsimp only at h
    cases hp : p.finished with
    | true =>
      rw [parseEnd_of_finished builderVisitor hp] at h
      cases (Prod.mk.inj h).1
    | false => rw [eachValue_last req hp hx, lastValue, h]

/-- White space before it changes nothing. -/
theorem Reports.blank {chars : List MojByte} {e : MojErr} (h : Reports chars e) (blank : List JsonWs) :
    Reports (JsonWs.text blank ++ chars) e := by
  obtain ⟨visitor, h⟩ := h
  obtain ⟨q, hq, hstart⟩ := atStart_init.blank blank
  have halike : MojJsonParser.init.begin.Alike q := .of_plain rfl hstart.top_eq hstart.below_eq
  have hsame : Agree Alike (do
      let (p, _) ← parseChunk builderVisitor MojJsonParser.init.begin chars
      parseEnd builderVisitor p) (do
      let (p, _) ← parseChunk builderVisitor q chars
      parseEnd builderVisitor p) := by
    intro b
    have hchunk := parseChunk_alike builderVisitor halike Sound.init chars b
    rw [Ensures.bind_apply, Ensures.bind_apply]
    rcases hx : parseChunk builderVisitor MojJsonParser.init.begin chars b with ⟨⟨e'⟩ | ⟨p, rest⟩, b'⟩
    · rcases hy : parseChunk builderVisitor q chars b with ⟨⟨e''⟩ | ⟨p', rest'⟩, b''⟩
      · rw [hx, hy] at hchunk
        exact hchunk
      · rw [hx, hy] at hchunk
        exact hchunk.elim
    · rcases hy : parseChunk builderVisitor q chars b with ⟨⟨e''⟩ | ⟨p', rest'⟩, b''⟩
      · rw [hx, hy] at hchunk
        exact hchunk.elim
      · rw [hx, hy] at hchunk
        obtain ⟨⟨halike', -⟩, rfl⟩ := hchunk
        exact parseEnd_alike builderVisitor halike' (Sound.chunk builderVisitor Sound.init chars b _ b' hx) b'
  have hb := hsame MojObjectBuilder.init
  rw [h] at hb
  rw [Reports, hq _ builderVisitor chars]
  rcases hy : (do
      let (p, _) ← parseChunk builderVisitor q chars
      parseEnd builderVisitor p) MojObjectBuilder.init with ⟨⟨e'⟩ | ⟨p⟩, b'⟩
  · rw [hy] at hb
    obtain ⟨rfl, rfl⟩ := hb
    exact ⟨_, hy⟩
  · rw [hy] at hb
    exact hb.elim

/-- The objects, each with the request opened again where it is its turn. -/
def loadEach (total : Nat) : List MojObject → Visiting σ Unit
  | [] => return
  | obj :: objs => do
    req.load obj
    req.reopen (total + 1)
    loadEach (total + 1) objs

/-- A number that ends the values is not read on. -/
def EndsBefore (values : List (JsonValue × List JsonWs)) (c : MojByte) : Prop :=
  ∀ x ∈ values.getLast?, x.1.isNumber = true → x.2 ≠ [] ∨ isNumberChar c = false

/-- The values in front of a text that the parser refuses. -/
theorem eachValue_before {values : List (JsonValue × List JsonWs)} {objs : List MojObject} {c : MojByte}
    {chars : List MojByte} {e : MojErr} (hs : isSpace c = false) (hslash : c ≠ ch '/') (hreports : Reports (c :: chars) e) {before : List JsonWs}
    {total : Nat} {countOut : UInt32}
    (h : List.Forall₂ (fun x obj => MojObject.fromJson x.1.text = .ok obj) values objs) (hapart : JsonFile.Apart values)
    (hlast : EndsBefore values c) :
    eachValue req total countOut (JsonWs.text before ++ JsonFile.valuesText values ++ c :: chars) = (do
      loadEach req total objs
      throw e) := by
  induction values generalizing objs before total countOut with
  | nil =>
    obtain rfl := List.forall₂_nil_left_iff.mp h
    simpa [JsonFile.valuesText, loadEach] using eachValue_reports req (hreports.blank before) total countOut
  | cons x values ih =>
    obtain ⟨obj, objs, hx, hrest, rfl⟩ := List.forall₂_cons_left_iff.mp h
    obtain ⟨d, rest, htext, hds, hdslash, hnumber⟩ : ∃ d rest, JsonFile.valuesText values ++ c :: chars = d :: rest ∧ isSpace d = false ∧
        d ≠ ch '/' ∧ (x.1.isNumber = false ∨ x.2 ≠ [] ∨ isNumberChar d = false) := by
      cases values with
      | nil =>
        refine ⟨c, chars, rfl, hs, hslash, ?_⟩
        cases hx : x.1.isNumber with
        | false => exact .inl rfl
        | true => exact .inr (hlast x rfl hx)
      | cons y values =>
        obtain ⟨d, rest, hy, hd⟩ := text_first y.1
        refine ⟨d, rest ++ (JsonWs.text y.2 ++ (JsonFile.valuesText values ++ c :: chars)), ?_, hd.not_space, hd.not_slash, ?_⟩
        · simp [JsonFile.valuesText, hy]
        · by_cases hx : x.1.isNumber = true
          · by_cases hyn : y.1.isNumber = true
            · exact .inr (.inl ((List.isChain_cons_cons.mp hapart).1 hx hyn))
            · exact .inr (.inr (isNumberChar_first (by simpa using hyn) hy))
          · exact .inl (by simpa using hx)
    have hnext := eachValue_nextText req (t := ⟨before, x.1, x.2⟩) hx total countOut hds hdslash hnumber rest
    have hlast' : EndsBefore values c := by
      intro y hy
      refine hlast y ?_
      cases values with
      | nil => cases hy
      | cons z values => exact hy
    have ih := @ih objs [] (total + 1) (countOut + 1) hrest (List.IsChain.tail hapart) hlast'
    have hvalues : JsonWs.text before ++ JsonFile.valuesText (x :: values) ++ c :: chars =
        JsonText.text ⟨before, x.1, x.2⟩ ++ d :: rest := by
      rw [← htext]
      simp [JsonFile.valuesText, JsonText.text]
    have hrest' : JsonWs.text [] ++ JsonFile.valuesText values ++ c :: chars = d :: rest := htext
    rw [hvalues, hnext, ← hrest', ih]
    simp only [loadEach, bind_assoc]

/-! ## The load -/

theorem fromJson_null : MojObject.fromJson MojJsonNullString = .ok .null := by
  have hgood : Good 0 .null := (good_leaf (by decide) rfl).mpr (by simp [JsonValue.tokens, JsonToken.Taken])
  have hparse := parse_good (t := ⟨[], .null, []⟩) hgood builderVisitor
  have htext : JsonText.text ⟨[], .null, []⟩ = MojJsonNullString := by decide
  rw [htext] at hparse
  rw [MojObject.fromJson, hparse]
  rfl

/-- A request that takes everything. -/
def accepting : LoadReq Unit where
  restoring := false
  loadStepSize := 0
  loadImpl _ := pure ()
  loadRestoreImpl _ := pure ()
  beginReq := pure ()
  beginBatch := pure ()
  reqEnd := pure ()
  reqEndBatch := pure ()

theorem reports_brace : Reports [ch '}'] .jsonParseUnexpected := by
  refine ⟨MojObjectBuilder.init, ?_⟩
  rw [parseChunk_cons, redo_goto_saved rfl (by decide) (by decide), redo_start builderVisitor rfl]
  rfl

/-- A comment is no JSON text. -/
theorem text_ne_comment (f : JsonFile) : f.text ≠ [ch '/', ch '*', ch '*', ch '/'] := by
  obtain ⟨before, values⟩ := f
  intro h
  cases before with
  | cons w before =>
    have hw := (List.cons.inj h).1
    cases w <;> exact absurd hw (by decide)
  | nil =>
    cases values with
    | nil => cases h
    | cons x values =>
      obtain ⟨c, chars, htext, hc⟩ := text_first x.1
      simp only [JsonFile.text, JsonFile.valuesText, JsonWs.text, List.flatMap_cons, htext, List.map_nil, List.nil_append,
        List.cons_append] at h
      exact hc.not_slash (List.cons.inj h).1

/-- It is taken nevertheless, as `stateCommentStart` and its kind are there for. -/
theorem eachValue_comment : eachValue accepting 0 0 [ch '/', ch '*', ch '*', ch '/'] = pure 0 := by
  obtain ⟨q, hchunk, hq, hstart⟩ : ∃ q : MojJsonParser,
      parseChunk builderVisitor MojJsonParser.init.begin [ch '/', ch '*', ch '*', ch '/'] MojObjectBuilder.init =
        (.ok (q, []), MojObjectBuilder.init) ∧ q.finished = false ∧ q.top = startRec := by
    rw [parseChunk_cons, redo_eatWhitespace builderVisitor rfl, if_neg (by decide), if_pos rfl, pure_bind]
    dsimp only
    rw [parseChunk_cons, redo_commentStart builderVisitor rfl, if_pos rfl, pure_bind]
    dsimp only
    rw [parseChunk_cons, redo_comment builderVisitor rfl, if_pos rfl, pure_bind]
    dsimp only
    rw [parseChunk_cons, redo_commentEnd builderVisitor rfl, if_pos rfl, pure_bind]
    exact ⟨_, rfl, rfl, rfl⟩
  obtain ⟨p, hp, hend⟩ := parseEnd_startRec builderVisitor hstart
  have happly : parseEnd builderVisitor q MojObjectBuilder.init = (.ok p, MojObjectBuilder.init) := by
    rw [hend]
    rfl
  rw [eachValue_last accepting hq hchunk, lastValue, happly]
  simp [hp]

end MojDb

end Db8
