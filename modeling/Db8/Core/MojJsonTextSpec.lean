import Db8.Core.MojJsonTextParse

/-!
# Core.MojJsonTextSpec

Which JSON texts the parser reads as what they are.

* `parse_good`, `isRefused_of_bad` — a text is read as its tokens, one by one, or refused.
* `isRefused_of_endsInside`        — a text that ends inside a value is refused.
* `JsonText.Meets`                 — what is expected of the parser on a text.
* `parse_meets_iff`                — the texts on which it does so.
-/

namespace Db8

open Lib MojJsonParser MojNumber

namespace MojJsonParser

variable {τ : Type}

/-- Whatever the visitor does, an error is returned. -/
def IsRefused (chars : List MojByte) : Prop :=
  ∀ (τ : Type) (visitor : JsonVisit → Visiting τ Unit), Ensures (parse visitor chars) fun _ => False

/-- What the parser calls for a text, given with a length or as a string with its zero. -/
def IsRead (chars : List MojByte) (vs : List JsonVisit) : Prop :=
  ∀ (τ : Type) (visitor : JsonVisit → Visiting τ Unit), parse visitor chars = calls visitor vs ∧
    ∀ behind, parseStr visitor chars behind = (do
      calls visitor vs
      return true)

/-- The same of a string with its zero, whatever lies behind it. -/
def IsRefusedStr (chars : List MojByte) : Prop :=
  ∀ (behind : List MojByte) (τ : Type) (visitor : JsonVisit → Visiting τ Unit),
    Ensures (parseStr visitor chars behind) fun _ => False

theorem calls_silent (vs : List JsonVisit) : calls silent vs () = (.ok (), ()) := by
  induction vs with
  | nil => rfl
  | cons v vs ih => exact ih

/-- A visitor that keeps the calls. -/
def recorder (v : JsonVisit) : Visiting (List JsonVisit) Unit := fun vs => (.ok (), vs ++ [v])

theorem calls_recorder (vs us : List JsonVisit) : calls recorder vs us = (.ok (), us ++ vs) := by
  induction vs generalizing us with
  | nil =>
    rw [List.append_nil]
    rfl
  | cons v vs ih =>
    have hrest := ih (us ++ [v])
    rw [List.append_assoc, List.singleton_append] at hrest
    exact hrest

/-! ## Whole texts -/

theorem atStart_init : init.begin.AtStart [] := ⟨rfl, rfl⟩

theorem AtStart.blank {p : MojJsonParser} {below : List MojJsonStackRec} (h : p.AtStart below) (blank : List JsonWs) :
    ∃ q, Eats p (JsonWs.text blank) [] q ∧ q.AtStart below := by
  obtain ⟨q, hq, htop, hbelow⟩ := eats_blank (by rw [h.top_eq]; rfl) blank
  exact ⟨q, hq, htop.trans h.top_eq, hbelow.trans h.below_eq⟩

/-- The first character of the next value ends a value, unless it may belong to its number. -/
theorem chunk_next {p : MojJsonParser} {ws : List JsonVisit} (h : p.Behind [] ws) {c : MojByte} (hs : isSpace c = false)
    (hslash : c ≠ ch '/') (hnumber : ws = [] ∨ isNumberChar c = false) (chars : List MojByte) (visitor : JsonVisit → Visiting τ Unit) :
    ∃ q, q.finished = true ∧ parseChunk visitor p (c :: chars) = (do calls visitor ws; return (q, c :: chars)) := by
  have hline : p.countLine c = p := if_neg (by rintro rfl; exact absurd hs (by decide))
  have hdone : ∀ q : MojJsonParser, q.Finished [] → (q.goto .stateFinish).finished = true ∧
      redo visitor q c = pure (.done (q.goto .stateFinish)) := by
    intro q hq
    refine ⟨finished_iff.mpr ⟨rfl, hq.below_eq⟩, ?_⟩
    rw [redo_goto_saved hq.state_eq hs hslash, hq.savedState_eq]
    exact redo_done visitor (p := q.goto .stateFinish) rfl hq.below_eq c
  cases h with
  | finished h =>
    obtain ⟨hfinished, hredo⟩ := hdone p h
    refine ⟨_, hfinished, ?_⟩
    rw [parseChunk_cons, hline, hredo]
    rfl
  | number h taken =>
    obtain ⟨q, hq, hredo⟩ := h.after (JsonNumber.numberIs_heard _ taken)
    obtain ⟨hfinished, hq⟩ := hdone q hq
    refine ⟨_, hfinished, ?_⟩
    rw [parseChunk_cons, hline, hredo τ visitor c (hnumber.resolve_left (List.cons_ne_nil _ _)), hq, bind_assoc]
    rfl

/-- A text is read to its end; what is left to be said is said of a number with nothing behind it. -/
theorem eats_good {t : JsonText} (h : Good 0 t.value) :
    ∃ q vs ws, Eats init.begin t.text vs q ∧ q.Behind [] ws ∧ vs ++ ws = t.value.events spellEach JsonNumber.heard ∧
      (t.value.isNumber = false ∨ t.after ≠ [] → ws = []) := by
  obtain ⟨q₁, hq₁, hstart⟩ := atStart_init.blank t.before
  obtain ⟨q₂, vs, ws, hq₂, hbehind, hev, hsaid⟩ := (understood t.value).reads hstart h
  obtain ⟨q₃, vs', ws', hq₃, hbehind', hev', hsaid'⟩ := hbehind.blank t.after
  refine ⟨q₃, [] ++ (vs ++ vs'), ws', hq₁.trans (hq₂.trans hq₃), hbehind', ?_, ?_⟩
  · rw [List.nil_append, List.append_assoc, hev', hev]
    rfl
  · rintro (hnumber | hafter)
    · rw [hsaid hnumber] at hev'
      exact (List.append_eq_nil_iff.mp hev').2
    · exact hsaid' hafter

theorem parse_good {t : JsonText} (h : Good 0 t.value) (visitor : JsonVisit → Visiting τ Unit) :
    parse visitor t.text = calls visitor (t.value.events spellEach JsonNumber.heard) := by
  obtain ⟨q, vs, ws, hq, hbehind, hev, -⟩ := eats_good h
  have hchunk := hq τ visitor []
  rw [List.append_nil] at hchunk
  rw [parse, hchunk, ← hev, calls_append, bind_assoc]
  simp [parseChunk, hbehind.after.finish visitor]

/-- The zero ends it as well, and nothing behind the zero is read. -/
theorem parseStr_good {t : JsonText} (h : Good 0 t.value) (behind : List MojByte) (visitor : JsonVisit → Visiting τ Unit) :
    parseStr visitor t.text behind = (do
      calls visitor (t.value.events spellEach JsonNumber.heard)
      return true) := by
  obtain ⟨q, vs, ws, hq, hbehind, hev, -⟩ := eats_good h
  obtain ⟨p, hp, hnext⟩ := chunk_next hbehind (c := 0) (by decide) (by decide) (.inr (by decide)) behind visitor
  rw [parseStr, hq τ visitor (0 :: behind), hnext, ← hev, calls_append]
  simp only [bind_assoc, pure_bind, if_neg (List.cons_ne_nil (0 : MojByte) behind), finish_of_finished visitor hp]

/-- A text that is refused on the way, or with the zero behind it. -/
theorem isRefused_of_fails {chars : List MojByte} (h : Fails False init.begin chars) : IsRefused chars := by
  intro τ visitor
  cases h with
  | @inside a b c vs q text_eq eats not_whole throws =>
    obtain ⟨us, e, he⟩ := throws
    rw [parse, text_eq, eats τ visitor (c :: b), he c rfl, bind_assoc, bind_assoc]
    exact (Ensures.top _).bind fun _ _ => (Ensures.top _).bind fun _ _ => .throw e
  | @behind vs q eats not_whole throws =>
    obtain ⟨us, e, he⟩ := throws
    have hchunk := eats τ visitor []
    rw [List.append_nil] at hchunk
    rw [parse, hchunk, bind_assoc]
    refine (Ensures.top _).bind fun _ _ => ?_
    rw [parseChunk, pure_bind]
    simp only [finish, parseEnd]
    rw [he 0 (by decide) τ visitor [], bind_assoc, bind_assoc]
    exact (Ensures.top _).bind fun _ _ => .throw e

theorem isRefusedStr_of_fails {chars : List MojByte} (h : Fails False init.begin chars) : IsRefusedStr chars := by
  intro behind τ visitor
  cases h with
  | @inside a b c vs q text_eq eats not_whole throws =>
    obtain ⟨us, e, he⟩ := throws
    rw [parseStr, text_eq, List.append_assoc, List.cons_append, eats τ visitor (c :: (b ++ 0 :: behind)), he c rfl, bind_assoc,
      bind_assoc]
    exact (Ensures.top _).bind fun _ _ => (Ensures.top _).bind fun _ _ => .throw e
  | @behind vs q eats not_whole throws =>
    obtain ⟨us, e, he⟩ := throws
    rw [parseStr, eats τ visitor (0 :: behind), he 0 (by decide), bind_assoc, bind_assoc]
    exact (Ensures.top _).bind fun _ _ => (Ensures.top _).bind fun _ _ => .throw e

theorem isRefused_of_bad {t : JsonText} (h : ¬Good 0 t.value) : IsRefused t.text ∧ IsRefusedStr t.text := by
  obtain ⟨q, hq, hstart⟩ := atStart_init.blank t.before
  have hfails := ((understood t.value).refuses hstart (by decide) h).mono False.elim
  have hall : Fails False init.begin t.text := .of_eats hq (hfails.blank t.after)
  exact ⟨isRefused_of_fails hall, isRefusedStr_of_fails hall⟩

/-! ## Texts that end inside a value -/

/-- The beginning of a text that is no text itself. -/
def EndsInside (chars : List MojByte) : Prop :=
  (∃ t : JsonText, chars <+: t.text) ∧ ∀ t : JsonText, t.text ≠ chars

/-- The end is an error where the parser stands in no whole value. -/
theorem isRefused_of_not_whole {chars : List MojByte}
    (h : ∀ (τ : Type) (visitor : JsonVisit → Visiting τ Unit),
      Ensures (parseChunk visitor init.begin chars) fun r => ¬r.1.Whole) : IsRefused chars := by
  intro τ visitor
  have hsound := Sound.chunk visitor Sound.init chars
  refine Ensures.bind (P := fun r : MojJsonParser × List MojByte => r.1.Sound ∧ ¬r.1.Whole)
    (fun s r s' hr => ⟨hsound s r s' hr, h τ visitor s r s' hr⟩) fun r hr => ?_
  exact finish_fails visitor hr.1 hr.2

/-- No part of what is read on the way to a place inside a value is a whole value. -/
theorem not_whole_of_eats {p q : MojJsonParser} {a x : List MojByte} {vs : List JsonVisit} (h : Eats p a vs q)
    (hq : ¬q.Whole) (hx : x <+: a) (visitor : JsonVisit → Visiting τ Unit) :
    Ensures (parseChunk visitor p x) fun r => ¬r.1.Whole := by
  obtain ⟨y, rfl⟩ := hx
  refine (parseChunk_silent visitor p x).mono fun r hr hw => hq ?_
  have hall := h Unit silent []
  rw [List.append_nil, parseChunk_append] at hall
  have hleft : Ensures (if r.2 = [] then parseChunk silent r.1 y else pure (r.1, r.2 ++ y))
      fun r' : MojJsonParser × List MojByte => r'.1.Whole := by
    split_ifs
    · exact hw.chunk silent y
    · exact .pure hw
  refine hleft () (q, []) () ?_
  have happly := congrFun hall ()
  rw [Ensures.bind_apply, hr, Ensures.bind_apply, calls_silent] at happly
  exact happly

theorem not_whole_of_fails {p : MojJsonParser} {chars x : List MojByte} (h : Fails True p chars) (hx : x <+: chars)
    (visitor : JsonVisit → Visiting τ Unit) : Ensures (parseChunk visitor p x) fun r => ¬r.1.Whole := by
  cases h with
  | @inside a b c vs q text_eq eats not_whole throws =>
    subst text_eq
    rcases JsonNumber.prefix_append_cases hx with hx | ⟨y, hne, rfl, hy⟩
    · exact not_whole_of_eats eats (not_whole trivial) hx visitor
    · obtain ⟨us, e, he⟩ := throws
      obtain ⟨z, rfl, -⟩ := (List.prefix_cons_iff.mp hy).resolve_left hne
      rw [eats τ visitor (c :: z), he c rfl]
      exact (Ensures.top _).bind fun _ _ => (Ensures.top _).bind fun _ _ => .throw e
  | @behind vs q eats not_whole throws => exact not_whole_of_eats eats (not_whole trivial) hx visitor

/-- No part of a value is a whole value, unless it is a number. -/
theorem not_whole_of_part {v : JsonValue} (hv : v.isNumber = false) {p : MojJsonParser} (hp : p.AtStart [])
    {x y : List MojByte} (htext : v.text = x ++ y) (hy : y ≠ []) (visitor : JsonVisit → Visiting τ Unit) :
    Ensures (parseChunk visitor p x) fun r => ¬r.1.Whole := by
  by_cases hgood : Good 0 v
  · obtain ⟨a, c, vs, q, hopen, heats, hwhole⟩ := (understood v).opens hp hgood hv
    refine not_whole_of_eats heats hwhole ?_ visitor
    have hcut : x <+: a ++ [c] := ⟨y, by rw [← htext, hopen]⟩
    rcases JsonNumber.prefix_append_cases hcut with hx | ⟨z, hne, rfl, hz⟩
    · exact hx
    · obtain ⟨w, rfl, hw⟩ := (List.prefix_cons_iff.mp hz).resolve_left hne
      obtain rfl := List.prefix_nil.mp hw
      rw [hopen] at htext
      exact absurd (List.self_eq_append_right.mp htext) hy
  · have hfails := ((understood v).refuses hp (by decide) hgood).mono fun _ : True => .inr hv
    exact not_whole_of_fails hfails ⟨y, htext.symm⟩ visitor

/-- A number that is cut off behind something else than a digit. -/
theorem isRefused_of_number (blank : List JsonWs) {n : JsonNumber} {x : List MojByte} (hx : x <+: n.num.text)
    {c : MojByte} (hlast : x.getLast? = some c) (hc : digit? c = none) : IsRefused (JsonWs.text blank ++ x) := by
  obtain ⟨d, ds, rfl⟩ := List.exists_cons_of_ne_nil (l := x) (by rintro rfl; cases hlast)
  obtain ⟨e, es, htext, hfirst⟩ := n.text_first
  obtain ⟨rfl, -⟩ := List.cons_prefix_cons.mp (htext ▸ hx)
  obtain ⟨q, hq, hstart⟩ := atStart_init.blank blank
  obtain ⟨r, hr, hin⟩ := hstart.eats_number hfirst fun b hb => n.isNumberChar_text b (hx.subset hb)
  intro τ visitor
  have hchunk := (hq.trans hr) τ visitor []
  have hline : r.countLine 0 = r := if_neg (by decide)
  rw [List.append_nil] at hchunk
  rw [parse, hchunk, bind_assoc]
  refine (Ensures.top _).bind fun _ _ => ?_
  rw [parseChunk, pure_bind]
  simp only [finish, parseEnd]
  rw [parseChunk_cons, hline, redo_number visitor hin.state_eq, if_neg (by decide)]
  simp only [bind_assoc]
  exact (JsonNumber.last_of_numberValue hin hlast hc visitor).bind fun _ hfalse => hfalse.elim

theorem isRefused_blank (blank : List JsonWs) : IsRefused (JsonWs.text blank) := by
  obtain ⟨q, hq, hstart⟩ := atStart_init.blank blank
  refine isRefused_of_not_whole fun τ visitor => not_whole_of_eats hq (fun hw => ?_) (List.prefix_refl _) visitor
  have hsaved := hw.saved (by rw [hstart.top_eq]; rfl)
  rw [hstart.top_eq] at hsaved
  cases hsaved

/-- **A text that ends inside a value is refused.** -/
theorem isRefused_of_endsInside {chars : List MojByte} (h : EndsInside chars) : IsRefused chars := by
  obtain ⟨⟨t, ht⟩, hnone⟩ := h
  rcases JsonNumber.prefix_append_cases ht with hblank | ⟨x, -, rfl, hx⟩
  · obtain ⟨blank, -, rfl⟩ := List.prefix_map_iff.mp hblank
    exact isRefused_blank blank
  rcases JsonNumber.prefix_append_cases hx with hv | ⟨z, -, rfl, hz⟩
  · obtain ⟨y, hy⟩ := hv
    have hne : y ≠ [] := by
      rintro rfl
      rw [List.append_nil] at hy
      exact hnone ⟨t.before, t.value, []⟩ (by simp [JsonText.text, JsonWs.text, hy])
    cases hnumber : t.value.isNumber with
    | false =>
      refine isRefused_of_not_whole fun τ visitor => ?_
      obtain ⟨q, hq, hstart⟩ := atStart_init.blank t.before
      rw [hq τ visitor x]
      exact (Ensures.top _).bind fun _ _ => not_whole_of_part hnumber hstart hy.symm hne visitor
    | true =>
      obtain ⟨n, hn⟩ : ∃ n, t.value = .number n := by
        cases hv : t.value with
        | number n => exact ⟨n, rfl⟩
        | _ => rw [hv] at hnumber; cases hnumber
      have hprefix : x <+: n.num.text := ⟨y, by rw [hy, hn, JsonValue.text]⟩
      cases hlast : x.getLast? with
      | none =>
        rw [List.getLast?_eq_none_iff.mp hlast, List.append_nil]
        exact isRefused_blank t.before
      | some c =>
        cases hc : digit? c with
        | none => exact isRefused_of_number t.before hprefix hlast hc
        | some d =>
          obtain ⟨k, hk⟩ := n.exists_of_isPrefix hprefix hlast (by rw [hc]; rfl)
          exact absurd (by simp [JsonText.text, JsonWs.text, JsonValue.text, hk]) (hnone ⟨t.before, .number k, []⟩)
  · obtain ⟨blank, -, rfl⟩ := List.prefix_map_iff.mp hz
    exact absurd rfl (hnone ⟨t.before, t.value, blank⟩)

end MojJsonParser

/-! ## What is expected -/

namespace JsonText

variable (t : JsonText)

def InRange : Prop := ∀ n ∈ t.value.numbers, n.InRange

/-- Without `\u0000`. -/
def NoNul : Prop := ∀ s ∈ t.value.strings, ∀ x ∈ s, x.isNul = false

/-- A text that is not nested too deep and has all its numbers in range is read as what it stands for, and one with a number
out of range is refused. -/
structure Meets : Prop where
  reads : t.value.nesting < MaxDepth → t.NoNul → t.InRange → ∃ counted : JsonNumber → JsonVisit,
    (∀ n ∈ t.value.numbers, NumberStands n (counted n)) ∧ IsRead t.text (t.value.events JsonChar.spell counted)
  refuses : ¬t.InRange → IsRefused t.text ∧ IsRefusedStr t.text

/-- Where the numbers are in range, there is no surrogate pair and each decimal is one that is rounded as it should be; where
one is not, the text is refused for something else than an integer. -/
structure Clear : Prop where
  reads : t.value.nesting < MaxDepth → t.NoNul → t.InRange →
    (∀ s ∈ t.value.strings, JsonChar.NoPair s) ∧ ∀ n ∈ t.value.numbers, n.isInteger = false → n.num.Kept
  refuses : ¬t.InRange → MaxDepth ≤ t.value.nesting ∨ ¬t.NoNul ∨
    ∃ n ∈ t.value.numbers, n.isInteger = false ∧ n.num.Refused

/-- No digits of a decimal are lost without a report. -/
def Sound : Prop := ∀ n ∈ t.value.numbers, n.isInteger = false → n.num.Sound

variable {t}

theorem good_iff : Good 0 t.value ↔ t.value.nesting < MaxDepth ∧ t.NoNul ∧ ∀ n ∈ t.value.numbers, n.Taken := by
  rw [Good, Nat.zero_add]
  refine and_congr_right fun _ => ⟨fun h => ⟨fun s hs => ?_, fun n hn => h _ (JsonValue.mem_numbers.mp hn)⟩, ?_⟩
  · rcases JsonValue.mem_strings.mp hs with hs | hs
    · exact h _ hs
    · exact h _ hs
  · rintro ⟨hstrings, hnumbers⟩ token hmem
    cases token with
    | name s => exact hstrings s (JsonValue.mem_strings.mpr (.inl hmem))
    | string s => exact hstrings s (JsonValue.mem_strings.mpr (.inr hmem))
    | number n => exact hnumbers n (JsonValue.mem_numbers.mpr hmem)
    | _ => trivial

/-- A text with a call for each token is not refused, so it is good, and the calls are the ones that are made. -/
theorem heard_of_isRead {vs : List JsonVisit} (h : IsRead t.text vs) :
    Good 0 t.value ∧ t.value.events spellEach JsonNumber.heard = vs := by
  have hgood : Good 0 t.value := by
    by_contra hbad
    exact (isRefused_of_bad hbad).1 Unit silent () () () (by rw [(h _ _).1, calls_silent])
  refine ⟨hgood, ?_⟩
  have hrecord := congrFun (h _ recorder).1 []
  rw [parse_good hgood, calls_recorder, calls_recorder] at hrecord
  exact (Prod.mk.inj hrecord).2

/-- What is read as it should be has no surrogate pair. -/
theorem noPair_of_events {counted : JsonNumber → JsonVisit}
    (h : t.value.events spellEach JsonNumber.heard = t.value.events JsonChar.spell counted) :
    (∀ s ∈ t.value.strings, JsonChar.NoPair s) ∧ ∀ n ∈ t.value.numbers, n.heard = counted n := by
  obtain ⟨hstrings, hnumbers⟩ := JsonValue.events_eq_iff.mp h
  exact ⟨fun s hs => (JsonChar.spell_eq_iff s).mp (hstrings s hs), hnumbers⟩

/-- A decimal that is taken stands for what is heard of it just when it is kept. -/
theorem kept_of_stands {n : JsonNumber} (hdecimal : n.isInteger = false) (htaken : n.Taken)
    (hsound : n.num.Sound) : NumberStands n n.heard ↔ n.num.Kept := by
  obtain ⟨d, hd⟩ := htaken hdecimal
  rw [← Numeral.assign_text_right_iff n.num hsound, JsonNumber.heard, hdecimal, hd]
  exact and_iff_right hdecimal

/-- A decimal in range that is kept is taken. -/
theorem taken_of_kept {n : JsonNumber} (hrange : n.InRange) (hkept : n.isInteger = false → n.num.Kept)
    (hsound : n.isInteger = false → n.num.Sound) : n.Taken := by
  intro hdecimal
  have hright := (Numeral.assign_text_right_iff n.num (hsound hdecimal)).mpr (hkept hdecimal)
  rw [JsonNumber.InRange, hdecimal, if_neg Bool.false_ne_true] at hrange
  obtain ⟨m, hnearest, hfits⟩ := hrange
  cases hassign : MojDecimal.assign n.num.text with
  | ok d => exact ⟨d, rfl⟩
  | error e =>
    rw [hassign] at hright
    exact absurd hfits (hright.2 m hnearest)

theorem stands_integer {n : JsonNumber} (hinteger : n.isInteger = true) (hrange : n.InRange) : NumberStands n n.heard := by
  rw [JsonNumber.InRange, hinteger, if_pos rfl] at hrange
  rw [JsonNumber.heard, hinteger, if_pos rfl]
  exact ⟨hinteger, JsonNumber.clamp_of_fits hrange⟩

theorem clear_of_meets (hsound : t.Sound) (h : t.Meets) : t.Clear := by
  constructor
  · intro hnesting hnul hrange
    obtain ⟨counted, hcounted, hread⟩ := h.reads hnesting hnul hrange
    obtain ⟨hgood, hevents⟩ := heard_of_isRead hread
    obtain ⟨hpairs, hheard⟩ := noPair_of_events hevents
    refine ⟨hpairs, fun n hn hdecimal => ?_⟩
    rw [← kept_of_stands hdecimal ((good_iff.mp hgood).2.2 n hn) (hsound n hn hdecimal), hheard n hn]
    exact hcounted n hn
  · intro hrange
    have hbad : ¬Good 0 t.value := by
      intro hgood
      exact (h.refuses hrange).1 Unit silent () () () (by rw [parse_good hgood, calls_silent])
    by_contra hnone
    push Not at hnone
    obtain ⟨hnesting, hnul, hrefused⟩ := hnone
    refine hbad (good_iff.mpr ⟨hnesting, hnul, fun n hn hdecimal => ?_⟩)
    have htaken := mt (Numeral.assign_refused_iff (hsound n hn hdecimal)).mp (hrefused n hn hdecimal)
    push Not at htaken
    exact htaken

theorem meets_of_clear (hsound : t.Sound) (h : t.Clear) : t.Meets := by
  constructor
  · intro hnesting hnul hrange
    obtain ⟨hpairs, hkept⟩ := h.reads hnesting hnul hrange
    have htaken : ∀ n ∈ t.value.numbers, n.Taken := fun n hn => taken_of_kept (hrange n hn) (hkept n hn) (hsound n hn)
    refine ⟨JsonNumber.heard, fun n hn => ?_, fun τ visitor => ?_⟩
    · cases hinteger : n.isInteger with
      | true => exact stands_integer hinteger (hrange n hn)
      | false => exact (kept_of_stands hinteger (htaken n hn) (hsound n hn hinteger)).mpr (hkept n hn hinteger)
    · have hgood : Good 0 t.value := good_iff.mpr ⟨hnesting, hnul, htaken⟩
      have hevents : t.value.events spellEach JsonNumber.heard = t.value.events JsonChar.spell JsonNumber.heard :=
        JsonValue.events_eq_iff.mpr ⟨fun s hs => (JsonChar.spell_eq_iff s).mpr (hpairs s hs), fun _ _ => rfl⟩
      rw [← hevents]
      exact ⟨parse_good hgood visitor, fun behind => parseStr_good hgood behind visitor⟩
  · intro hrange
    refine isRefused_of_bad fun hgood => ?_
    obtain ⟨hnesting, hnul, htaken⟩ := good_iff.mp hgood
    rcases h.refuses hrange with hdeep | hzero | ⟨n, hn, hdecimal, hrefused⟩
    · omega
    · exact hzero hnul
    · obtain ⟨d, hd⟩ := htaken n hn hdecimal
      exact (Numeral.assign_refused_iff (hsound n hn hdecimal)).mpr hrefused d hd

/-- A text of one character is a number. -/
theorem text_ne_singleton {c : MojByte} (hspace : isSpace c = false) (hdigit : (digit? c).isSome = false) (hminus : c ≠ ch '-')
    (t : JsonText) : t.text ≠ [c] := by
  obtain ⟨before, v, after⟩ := t
  intro ht
  cases before with
  | cons w before =>
    rw [← (List.cons.inj ht).1] at hspace
    cases w <;> exact absurd hspace (by decide)
  | nil =>
    have hlen := congrArg List.length ht
    cases v with
    | null => simp [JsonText.text, JsonWs.text, JsonValue.text, MojJsonNullString] at hlen
    | bool b => cases b <;> simp [JsonText.text, JsonWs.text, JsonValue.text, MojJsonTrueString, MojJsonFalseString] at hlen
    | number n =>
      obtain ⟨e, es, he, hfirst⟩ := n.text_first
      simp only [JsonText.text, JsonWs.text, JsonValue.text, he, List.map_nil, List.nil_append, List.cons_append] at ht
      rw [(List.cons.inj ht).1, hdigit] at hfirst
      exact hfirst.elim Bool.false_ne_true hminus
    | string s => simp [JsonText.text, JsonWs.text, JsonValue.text, JsonChar.stringText] at hlen
    | array blank xs => simp [JsonText.text, JsonWs.text, JsonValue.text] at hlen
    | object blank ms => simp [JsonText.text, JsonWs.text, JsonValue.text] at hlen

/-- A string with its zero is read on behind it where the zero is taken, as in a string that does not end. -/
theorem not_isRefusedStr_quote : EndsInside [quote] ∧ ¬IsRefusedStr [quote] := by
  refine ⟨⟨⟨⟨[], .string [], []⟩, [quote], rfl⟩, text_ne_singleton (by decide) (by decide) (by decide)⟩, fun h => ?_⟩
  · -- the string that is read has the zero in it
    have hread : parseStr silent [quote] [quote, 0] = (do
        silent (.stringValue [0])
        return true) := by
      rw [parseStr, List.singleton_append, parseChunk_cons, redo_goto_saved rfl (by decide) (by decide), redo_start silent rfl]
      change ((parseChunk silent _ [0, quote, 0]) >>= _) = _
      rw [parseChunk_cons, redo_string silent rfl, if_neg (by decide), if_neg (by decide)]
      change ((parseChunk silent _ [quote, 0]) >>= _) = _
      rw [parseChunk_cons, redo_string silent rfl, if_pos rfl]
      change ((parseChunk silent _ [0]) >>= _) = _
      rw [parseChunk_cons, redo_goto_saved rfl (by decide) (by decide), redo_done silent rfl rfl]
      simp only [pure_bind, if_neg (List.cons_ne_nil (0 : MojByte) [])]
      rw [finish_of_finished silent rfl]
      rfl
    exact h [quote, 0] Unit silent () true () (by rw [hread]; rfl)

/-- `[ -2.5 ]` -/
def oneDecimal : JsonText :=
  ⟨[], .array [] [⟨[.space], .number ⟨Numeral.minusTwoAndHalf, by decide, 2, [], rfl, fun _ => rfl⟩, [.space]⟩], []⟩

theorem endsInside_bracket : EndsInside [ch '['] :=
  ⟨⟨oneDecimal, ⟨_, rfl⟩⟩, text_ne_singleton (by decide) (by decide) (by decide)⟩

theorem numbers_oneDecimal {n : JsonNumber} (h : n ∈ oneDecimal.value.numbers) : n.num = Numeral.minusTwoAndHalf := by
  obtain rfl := List.mem_singleton.mp h
  rfl

theorem clear_oneDecimal : oneDecimal.Clear := by
  have hkept : ∀ n ∈ oneDecimal.value.numbers, n.isInteger = false → n.num.Kept := fun n hn _ =>
    (numbers_oneDecimal hn).symm ▸ Numeral.kept_minusTwoAndHalf
  refine ⟨fun _ _ _ => ⟨nofun, hkept⟩, fun hrange => absurd (fun n hn => ?_) hrange⟩
  obtain rfl := List.mem_singleton.mp hn
  refine ⟨-2500000, ?_, by decide⟩
  have hvalue : Numeral.minusTwoAndHalf.millionths = -2500000 := by
    rw [Numeral.millionths_eq]
    change -(((25 : Nat) : ℚ) * 10 ^ (5 : Int)) = _
    norm_num
  change Nearest _ Numeral.minusTwoAndHalf.millionths
  rw [hvalue]
  norm_num [Nearest]

def hex (value : Fin 16) : HexDigit := ⟨value, false⟩

/-- `"\ud83d\ude00"`, the pair of U+1F600 -/
def surrogatePair : JsonText :=
  ⟨[], .string [.unicode (hex 13) (hex 8) (hex 3) (hex 13), .unicode (hex 13) (hex 14) (hex 0) (hex 0)], []⟩

end JsonText

end Db8
