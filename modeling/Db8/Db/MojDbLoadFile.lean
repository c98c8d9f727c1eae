import Db8.Core.MojJson
import Db8.Core.MojJsonParserBegin

/-!
# Db.MojDbLoadFile

`MojDb::loadFile`, from the opened file on: one parser over all reads, begun again behind every object.

* `parseBuf`   — what is done with the characters of one read.
* `loadFile`   — the reads up to the end of the file, and what is left over then.
* `eachValue`  — the values of the content one by one, each with a parser and a builder of its own.
* `parseBuf_append`, `readLoop_eq` — where the reads are cut does not matter.
* `loadFile_eq` — the load does what is done value by value.
-/

namespace Db8

open Lib MojJsonParser

namespace MojDb

variable {σ : Type}

/-- What a load calls, on the database and the request. -/
structure LoadReq (σ : Type) where
  restoring : Bool
  loadStepSize : Int
  loadImpl : MojObject → Visiting σ Unit
  loadRestoreImpl : MojObject → Visiting σ Unit
  beginReq : Visiting σ Unit
  beginBatch : Visiting σ Unit
  reqEnd : Visiting σ Unit
  reqEndBatch : Visiting σ Unit

namespace LoadReq

variable (req : LoadReq σ)

def load (obj : MojObject) : Visiting σ Unit :=
  if req.restoring then req.loadRestoreImpl obj else req.loadImpl obj

/-- Ends the transaction and begins the next one, after every `loadStepSize` objects. -/
def reopen (total : Nat) : Visiting σ Unit :=
  if 0 < req.loadStepSize ∧ (total : Int) % req.loadStepSize = 0 then do
    req.reqEnd
    req.reqEndBatch
    req.beginBatch
    req.beginReq
  else return

end LoadReq

/-- The variables of the loop. -/
structure Load where
  parser : MojJsonParser
  visitor : MojObjectBuilder
  countOut : UInt32
  total : Nat

namespace Load

def init (countOut : UInt32) : Load := ⟨MojJsonParser.init.begin, MojObjectBuilder.init, countOut, 0⟩

/-- Behind an object: `begin` and `reset`. -/
def next (l : Load) (p : MojJsonParser) : Load :=
  ⟨p.begin, MojObjectBuilder.init, l.countOut + 1, l.total + 1⟩

/-- An object begun twice at one place would be an endless loop. -/
def weight (p : MojJsonParser) (chars : List MojByte) : Nat :=
  2 * chars.length + if p.top.state = .stateEatWhitespace ∧ p.top.savedState = .stateStart then 0 else 1

theorem top_eq_startRec {p : MojJsonParser}
    (h : p.top.state = .stateEatWhitespace ∧ p.top.savedState = .stateStart) : p.top = startRec := by
  rcases p with ⟨line, col, strPos, ucsChar, matchTrue, isDecimal, str, ⟨state, saved, ne⟩, below⟩
  obtain ⟨rfl, rfl⟩ := h
  rfl

theorem weight_begin (p : MojJsonParser) (chars : List MojByte) : weight p.begin chars = 2 * chars.length := rfl

theorem weight_le (p : MojJsonParser) (chars : List MojByte) : weight p chars ≤ 2 * chars.length + 1 := by
  unfold weight
  split_ifs
  · omega
  · omega

variable {p q : MojJsonParser} {chars rest : List MojByte} {b b' : MojObjectBuilder}

/-- Behind an object less is left over. -/
theorem weight_next (hne : chars ≠ []) (h : parseChunk builderVisitor p chars b = (.ok (q, rest), b')) :
    weight q.begin rest < weight p chars := by
  rw [weight_begin]
  unfold weight
  split_ifs with hstart
  · have hlt := parseChunk_start builderVisitor (top_eq_startRec hstart) hne b _ b' h
    dsimp only at hlt
    omega
  · have hle := parseChunk_length builderVisitor p chars b _ b' h
    dsimp only at hle
    omega

/-- Where no object ends, nothing is left over. -/
theorem rest_eq_nil (hq : ¬q.finished) (h : parseChunk builderVisitor p chars b = (.ok (q, rest), b')) : rest = [] := by
  by_contra hrest
  exact hq (parseChunk_ensures builderVisitor p chars b _ b' h hrest)

theorem weight_rest (hne : chars ≠ []) (hq : ¬q.finished)
    (h : parseChunk builderVisitor p chars b = (.ok (q, rest), b')) : weight q rest < weight p chars := by
  have hlength : 0 < chars.length := List.length_pos_iff.mpr hne
  have hle := weight_le q []
  rw [rest_eq_nil hq h]
  unfold weight at hle ⊢
  simp only [List.length_nil] at hle ⊢
  omega

end Load

/-- The characters of one read: the inner loop. -/
def parseBuf (req : LoadReq σ) (l : Load) (chars : List MojByte) : Visiting σ Load :=
  if _hne : chars = [] then return l
  else
    match h : parseChunk builderVisitor l.parser chars l.visitor with
    | (.error e, _) => throw e
    | (.ok (p, rest), visitor) =>
      if hp : p.finished then do
        req.load visitor.obj
        req.reopen (l.total + 1)
        parseBuf req (l.next p) rest
      else parseBuf req { l with parser := p, visitor := visitor } rest
termination_by Load.weight l.parser chars
decreasing_by
  · exact Load.weight_next _hne h
  · exact Load.weight_rest _hne hp h

/-- The outer loop, to the read that gives nothing; also how many characters the last one gave. -/
def readLoop (req : LoadReq σ) (l : Load) : List (List MojByte) → Visiting σ (Load × Nat)
  | [] => return (l, 0)
  | buf :: bufs => do
    let l ← parseBuf req l buf
    if 0 < buf.length then readLoop req l bufs else return (l, buf.length)

/-- `end`, and the object that nothing comes behind. -/
def loadEnd (req : LoadReq σ) (l : Load) (bytesRead : Nat) : Visiting σ UInt32 :=
  match parseEnd builderVisitor l.parser l.visitor with
  | (.error e, _) => throw e
  | (.ok p, visitor) =>
    if p.finished then do
      req.load visitor.obj
      return l.countOut + 1
    else if 0 < bytesRead then throw .jsonParseEof
    else return l.countOut

/-- `loadFile` of an opened file whose reads give `bufs`. -/
def loadFile (req : LoadReq σ) (countOut : UInt32) (bufs : List (List MojByte)) : Visiting σ UInt32 := do
  req.beginReq
  let (l, bytesRead) ← readLoop req (.init countOut) bufs
  let countOut ← loadEnd req l bytesRead
  req.reqEnd
  req.reqEndBatch
  return countOut

/-- What the reads give, up to the one that gives nothing. -/
def content : List (List MojByte) → List MojByte
  | [] => []
  | buf :: bufs => if 0 < buf.length then buf ++ content bufs else []

/-! ## The reads together -/

section Reads

variable (req : LoadReq σ) (l : Load)

theorem parseBuf_nil : parseBuf req l [] = pure l := by
  rw [parseBuf, dif_pos rfl]

variable {l} {chars rest : List MojByte} {visitor : MojObjectBuilder} {p : MojJsonParser}

theorem parseBuf_error (hne : chars ≠ []) {e : MojErr}
    (h : parseChunk builderVisitor l.parser chars l.visitor = (.error e, visitor)) : parseBuf req l chars = throw e := by
  rw [parseBuf, dif_neg hne]
  split
  · rename_i he
    cases h.symm.trans he
    rfl
  · rename_i hok
    cases h.symm.trans hok

theorem parseBuf_ok (hne : chars ≠ [])
    (h : parseChunk builderVisitor l.parser chars l.visitor = (.ok (p, rest), visitor)) :
    parseBuf req l chars =
      if p.finished then do
        req.load visitor.obj
        req.reopen (l.total + 1)
        parseBuf req (l.next p) rest
      else parseBuf req { l with parser := p, visitor := visitor } rest := by
  rw [parseBuf, dif_neg hne]
  split
  · rename_i he
    cases h.symm.trans he
  · rename_i hok
    cases h.symm.trans hok
    split_ifs
    · rfl
    · rfl

/-- What `parseChunk_append` says of a builder that a text is read into. -/
theorem parseChunk_append_ok {a b : List MojByte} {builder : MojObjectBuilder} {q : MojJsonParser}
    (h : parseChunk builderVisitor q a builder = (.ok (p, rest), visitor)) :
    parseChunk builderVisitor q (a ++ b) builder =
      (if rest = [] then parseChunk builderVisitor p b else pure (p, rest ++ b)) visitor := by
  rw [parseChunk_append, Ensures.bind_apply, h]

theorem parseChunk_append_error {a b : List MojByte} {builder : MojObjectBuilder} {q : MojJsonParser} {e : MojErr}
    (h : parseChunk builderVisitor q a builder = (.error e, visitor)) :
    parseChunk builderVisitor q (a ++ b) builder = (.error e, visitor) := by
  rw [parseChunk_append, Ensures.bind_apply, h]

theorem begin_countLine (q : MojJsonParser) (c : MojByte) : (q.countLine c).begin = q.begin := by
  unfold MojJsonParser.countLine
  split_ifs
  · rfl
  · rfl

/-- A value that ended with the last read is stored before anything else is looked at. -/
theorem parseBuf_of_finished (hp : l.parser.finished = true) (hne : chars ≠ []) :
    parseBuf req l chars = (do
      req.load l.visitor.obj
      req.reopen (l.total + 1)
      parseBuf req (l.next l.parser) chars) := by
  obtain ⟨c, chars, rfl⟩ := List.exists_cons_of_ne_nil hne
  have hchunk : parseChunk builderVisitor l.parser (c :: chars) l.visitor =
      (.ok (l.parser.countLine c, c :: chars), l.visitor) := by
    rw [parseChunk_cons, redo_of_finished builderVisitor (finished_countLine hp c)]
    rfl
  have hnext : l.next (l.parser.countLine c) = l.next l.parser := by
    rw [Load.next, Load.next, begin_countLine]
  rw [parseBuf_ok req hne hchunk, if_pos (finished_countLine hp c), hnext]

/-- Only what the parser makes of the characters matters. -/
theorem parseBuf_congr {l m : Load} {chars' : List MojByte} (hne : chars ≠ []) (hne' : chars' ≠ [])
    (h : parseChunk builderVisitor l.parser chars l.visitor = parseChunk builderVisitor m.parser chars' m.visitor)
    (countOut : l.countOut = m.countOut) (total : l.total = m.total) :
    parseBuf req l chars = parseBuf req m chars' := by
  rcases hchunk : parseChunk builderVisitor l.parser chars l.visitor with ⟨⟨e⟩ | ⟨p, rest⟩, visitor⟩
  · rw [parseBuf_error req hne hchunk, parseBuf_error req hne' (h ▸ hchunk)]
  · rw [parseBuf_ok req hne hchunk, parseBuf_ok req hne' (h ▸ hchunk)]
    simp only [Load.next, countOut, total]

/-- **Where a read ends does not matter.** -/
theorem parseBuf_append (l : Load) (a b : List MojByte) :
    parseBuf req l (a ++ b) = (do
      let l ← parseBuf req l a
      parseBuf req l b) := by
  by_cases ha : a = []
  · rw [ha, parseBuf_nil, pure_bind, List.nil_append]
  have hab : a ++ b ≠ [] := fun h => ha (List.append_eq_nil_iff.mp h).1
  rcases hchunk : parseChunk builderVisitor l.parser a l.visitor with ⟨⟨e⟩ | ⟨p, rest⟩, visitor⟩
  · rw [parseBuf_error req hab (parseChunk_append_error hchunk), parseBuf_error req ha hchunk]
    rfl
  have happend := parseChunk_append_ok (b := b) hchunk
  rw [parseBuf_ok req ha hchunk]
  by_cases hrest : rest = []
  · rw [if_pos hrest] at happend
    subst hrest
    simp only [parseBuf_nil]
    by_cases hb : b = []
    · rw [hb, List.append_nil, parseBuf_ok req ha hchunk]
      simp only [parseBuf_nil, bind_pure]
    · rw [parseBuf_congr req (m := { l with parser := p, visitor := visitor }) hab hb happend rfl rfl]
      split_ifs with hp
      · rw [parseBuf_of_finished req hp hb]
        simp only [bind_assoc, pure_bind]
        rfl
      · rw [pure_bind]
  · have hp := parseChunk_ensures builderVisitor l.parser a l.visitor _ _ hchunk hrest
    rw [if_neg hrest] at happend
    have hweight := Load.weight_next ha hchunk
    rw [parseBuf_ok req hab happend, if_pos hp, if_pos hp]
    simp only [bind_assoc]
    congr 1; funext _; congr 1; funext _
    exact parseBuf_append (l.next p) rest b
termination_by Load.weight l.parser a
decreasing_by exact hweight

/-- The reads do what one read of all of them does. -/
theorem readLoop_eq (l : Load) (bufs : List (List MojByte)) :
    readLoop req l bufs = (do
      let l ← parseBuf req l (content bufs)
      return (l, 0)) := by
  induction bufs generalizing l with
  | nil => rw [readLoop, content, parseBuf_nil, pure_bind]
  | cons buf bufs ih =>
    rw [readLoop, content]
    by_cases hbuf : 0 < buf.length
    · rw [if_pos hbuf, parseBuf_append, bind_assoc]
      simp only [if_pos hbuf, ih]
    · obtain rfl := List.length_eq_zero_iff.mp (Nat.eq_zero_of_not_pos hbuf)
      rw [if_neg hbuf, parseBuf_nil, pure_bind, pure_bind, if_neg hbuf]
      rfl

end Reads

/-! ## Value by value -/

/-- Behind a value less is left over. -/
theorem chunk_lt {p : MojJsonParser} {chars rest : List MojByte} {visitor : MojObjectBuilder} (hp : p.finished = true)
    (h : parseChunk builderVisitor MojJsonParser.init.begin chars MojObjectBuilder.init = (.ok (p, rest), visitor)) :
    rest.length < chars.length := by
  refine parseChunk_start builderVisitor rfl ?_ _ _ _ h
  rintro rfl
  cases h
  cases hp

/-- The end of a content whose last text is read by `p`. -/
def lastValue (req : LoadReq σ) (countOut : UInt32) (p : MojJsonParser) (visitor : MojObjectBuilder) : Visiting σ UInt32 :=
  match parseEnd builderVisitor p visitor with
  | (.error e, _) => throw e
  | (.ok p, visitor) =>
    if p.finished then do
      req.load visitor.obj
      return countOut + 1
    else return countOut

/-- The values one by one, each with a parser and a builder of its own. -/
def eachValue (req : LoadReq σ) (total : Nat) (countOut : UInt32) (chars : List MojByte) : Visiting σ UInt32 :=
  match _h : parseChunk builderVisitor MojJsonParser.init.begin chars MojObjectBuilder.init with
  | (.error e, _) => throw e
  | (.ok (p, rest), visitor) =>
    if hp : p.finished then do
      req.load visitor.obj
      req.reopen (total + 1)
      eachValue req (total + 1) (countOut + 1) rest
    else lastValue req countOut p visitor
termination_by chars.length
decreasing_by exact chunk_lt hp _h

section Each

variable (req : LoadReq σ) {total : Nat} {countOut : UInt32} {chars rest : List MojByte}
  {visitor : MojObjectBuilder} {p : MojJsonParser}

theorem eachValue_error {e : MojErr}
    (h : parseChunk builderVisitor MojJsonParser.init.begin chars MojObjectBuilder.init = (.error e, visitor)) :
    eachValue req total countOut chars = throw e := by
  rw [eachValue]
  split
  · rename_i he
    cases h.symm.trans he
    rfl
  · rename_i hok
    cases h.symm.trans hok

theorem eachValue_finished (hp : p.finished = true)
    (h : parseChunk builderVisitor MojJsonParser.init.begin chars MojObjectBuilder.init = (.ok (p, rest), visitor)) :
    eachValue req total countOut chars = (do
      req.load visitor.obj
      req.reopen (total + 1)
      eachValue req (total + 1) (countOut + 1) rest) := by
  rw [eachValue]
  split
  · rename_i he
    cases h.symm.trans he
  · rename_i hok
    cases h.symm.trans hok
    rw [dif_pos hp]

theorem eachValue_last (hp : p.finished = false)
    (h : parseChunk builderVisitor MojJsonParser.init.begin chars MojObjectBuilder.init = (.ok (p, rest), visitor)) :
    eachValue req total countOut chars = lastValue req countOut p visitor := by
  rw [eachValue]
  split
  · rename_i he
    cases h.symm.trans he
  · rename_i hok
    cases h.symm.trans hok
    rw [dif_neg (by simp [hp])]

/-- A builder that is read into leaves the parser sound. -/
theorem sound_of_chunk (h : parseChunk builderVisitor MojJsonParser.init.begin chars MojObjectBuilder.init =
    (.ok (p, rest), visitor)) : p.Sound := Sound.chunk builderVisitor Sound.init chars _ _ _ h

theorem loadEnd_eq {l : Load} (h : p.Alike l.parser) (hs : p.Sound) :
    loadEnd req l 0 = lastValue req l.countOut p l.visitor := by
  have hend := parseEnd_alike builderVisitor h hs l.visitor
  rw [loadEnd, lastValue]
  rcases hx : parseEnd builderVisitor p l.visitor with ⟨⟨e⟩ | ⟨p'⟩, visitor⟩
  · rcases hy : parseEnd builderVisitor l.parser l.visitor with ⟨⟨e'⟩ | ⟨q⟩, visitor'⟩
    · rw [hx, hy] at hend
      rw [hend.1]
    · rw [hx, hy] at hend
      exact hend.elim
  · rcases hy : parseEnd builderVisitor l.parser l.visitor with ⟨⟨e'⟩ | ⟨q⟩, visitor'⟩
    · rw [hx, hy] at hend
      exact hend.elim
    · rw [hx, hy] at hend
      obtain ⟨halike, rfl⟩ := hend
      simp [halike.finished]

/-- One parser over all of the content, begun again behind every object, does what a new one does for each. -/
theorem parseBuf_eq_eachValue {l : Load} (h : MojJsonParser.init.begin.Alike l.parser)
    (hvisitor : l.visitor = MojObjectBuilder.init) (chars : List MojByte) :
    (do let l ← parseBuf req l chars; loadEnd req l 0) = eachValue req l.total l.countOut chars := by
  by_cases hne : chars = []
  · rw [hne, parseBuf_nil, pure_bind, loadEnd_eq req h Sound.init, hvisitor]
    exact (eachValue_last req rfl rfl).symm
  have hchunk := parseChunk_alike builderVisitor h Sound.init chars MojObjectBuilder.init
  rcases hx : parseChunk builderVisitor MojJsonParser.init.begin chars MojObjectBuilder.init with
    ⟨⟨e⟩ | ⟨p, rest⟩, visitor⟩
  · rcases hy : parseChunk builderVisitor l.parser chars MojObjectBuilder.init with ⟨⟨e'⟩ | ⟨q, rest'⟩, visitor'⟩
    · rw [hx, hy] at hchunk
      obtain ⟨rfl, rfl⟩ := hchunk
      rw [parseBuf_error req hne (hvisitor ▸ hy), eachValue_error req hx]
      rfl
    · rw [hx, hy] at hchunk
      exact hchunk.elim
  · rcases hy : parseChunk builderVisitor l.parser chars MojObjectBuilder.init with ⟨⟨e'⟩ | ⟨q, rest'⟩, visitor'⟩
    · rw [hx, hy] at hchunk
      exact hchunk.elim
    · rw [hx, hy] at hchunk
      obtain ⟨⟨halike, hrest⟩, hvisitor'⟩ := hchunk
      dsimp only at halike hrest hvisitor'
      subst hrest hvisitor'
      rw [parseBuf_ok req hne (hvisitor ▸ hy), halike.finished]
      cases hp : p.finished with
      | true =>
        have hbelow : q.below = [] := (finished_iff.mp (halike.finished.trans hp)).2
        have hlt : rest.length < chars.length := parseChunk_start builderVisitor rfl hne _ _ _ hx
        have ih := parseBuf_eq_eachValue (l := l.next q) (alike_begin hbelow) rfl rest
        rw [eachValue_finished req hp hx, if_pos rfl]
        simp only [bind_assoc]
        rw [ih]
        rfl
      | false =>
        obtain rfl := Load.rest_eq_nil (by simp [hp]) hx
        rw [if_neg Bool.false_ne_true, parseBuf_nil, pure_bind, eachValue_last req hp hx]
        exact loadEnd_eq req halike (sound_of_chunk hx)
termination_by chars.length

end Each

/-- **The load value by value.** -/
theorem loadFile_eq (req : LoadReq σ) (countOut : UInt32) (bufs : List (List MojByte)) :
    loadFile req countOut bufs = (do
      req.beginReq
      let countOut ← eachValue req 0 countOut (content bufs)
      req.reqEnd
      req.reqEndBatch
      return countOut) := by
  have heach := parseBuf_eq_eachValue req (l := .init countOut) (Alike.of_plain rfl rfl rfl) rfl (content bufs)
  rw [loadFile]
  simp only [readLoop_eq, bind_assoc, pure_bind]
  congr 1; funext _
  simp only [← bind_assoc]
  rw [heach]
  rfl

end MojDb

end Db8
