import Db8.Core.MojNumber

/-!
# Core.MojNumberValue

The value of a number that is text, and what `MojNumber::Parser` makes of it.

* `Numeral`           — the texts that the lexer accepts, in their parts.
* `parse_text`        — the lexer hands the digits of the parts to the parser.
* `Held`, `Caught`    — the digits that the parser holds, and those that are too many and are found to be so.
* `toDecimal_right`   — which scaled values are rounded as they should be.
* `assign_right_iff`  — which texts give the nearest decimal.
-/

namespace Db8

open Lib

namespace MojNumber

/-! ## Texts -/

structure Exponent where
  capital : Bool
  /-- `true` for `+`. -/
  sign : Option Bool
  digits : List Nat
  lt_ten : ∀ d ∈ digits, d < 10
  ne_nil : digits ≠ []

/-- A number in its parts; without digits behind the point there is no point. -/
structure Numeral where
  sign : Option Bool
  magnitude : List Nat
  fraction : List Nat
  exponent : Option Exponent
  magnitude_lt : ∀ d ∈ magnitude, d < 10
  fraction_lt : ∀ d ∈ fraction, d < 10
  /-- Behind a sign there may be no digits before the point or the exponent. -/
  begins : magnitude ≠ [] ∨ sign.isSome ∧ (fraction ≠ [] ∨ exponent.isSome)

def signText : Option Bool → List MojByte
  | none => []
  | some true => [ch '+']
  | some false => [ch '-']

def Exponent.text (x : Exponent) : List MojByte :=
  (if x.capital then ch 'E' else ch 'e') :: (signText x.sign ++ x.digits.map digitChar)

namespace Numeral

def fractionText (num : Numeral) : List MojByte :=
  if num.fraction = [] then [] else ch '.' :: num.fraction.map digitChar

def exponentText (num : Numeral) : List MojByte := (num.exponent.map Exponent.text).getD []

def text (num : Numeral) : List MojByte :=
  signText num.sign ++ (num.magnitude.map digitChar ++ (num.fractionText ++ num.exponentText))

end Numeral

/-! ## The lexer -/

namespace Lexer

/-- The states of the lexer, whatever the visitor does. -/
def magnitudeNext (c : MojByte) : Option State :=
  if (digit? c).isSome then some .stateMagnitudeDigits
  else if c = ch '.' then some .stateFraction
  else if c = ch 'e' ∨ c = ch 'E' then some .stateExponent
  else none

def exponentNext (c : MojByte) : Option State := if (digit? c).isSome then some .stateExponentDigits else none

def next (state : State) (c : MojByte) : Option State :=
  match state with
  | .stateNumber =>
    if c = ch '-' ∨ c = ch '+' then some .stateMagnitude
    else if (digit? c).isNone then none
    else magnitudeNext c
  | .stateMagnitude => magnitudeNext c
  | .stateMagnitudeDigits => magnitudeNext c
  | .stateFraction => if (digit? c).isSome then some .stateFractionDigits else none
  | .stateFractionDigits =>
    if (digit? c).isSome then some .stateFractionDigits
    else if c = ch 'e' ∨ c = ch 'E' then some .stateExponent
    else none
  | .stateExponent => if c = ch '-' ∨ c = ch '+' then some .stateExponentFirstDigit else exponentNext c
  | .stateExponentFirstDigit => exponentNext c
  | .stateExponentDigits => exponentNext c

def Final (state : State) : Prop :=
  state = .stateMagnitudeDigits ∨ state = .stateFractionDigits ∨ state = .stateExponentDigits

instance (state : State) : Decidable (Final state) := inferInstanceAs (Decidable (_ ∨ _ ∨ _))

/-- The lexer reads the text to its end, and the end is one of a number. -/
def Accepts (number : List MojByte) : Prop := ∃ state, number.foldlM next .stateNumber = some state ∧ Final state

end Lexer

/-! ## Digits handed to the parser -/

namespace Lexer

theorem magnitudeNext_of_char {p p' : Parser} {c : MojByte} {state : State} (h : magnitudeChar p c = .ok (state, p')) :
    magnitudeNext c = some state := by
  unfold magnitudeChar at h
  unfold magnitudeNext
  cases hdigit : digit? c with
  | some x =>
    rw [hdigit] at h
    obtain ⟨q, -, hq⟩ := bind_eq_ok.mp h
    cases hq
    rfl
  | none =>
    rw [hdigit] at h
    dsimp only at h
    split_ifs at h with hpoint hmark
    · cases h
      rw [if_neg (by simp), if_pos hpoint]
    · cases h
      rw [if_neg (by simp), if_neg hpoint, if_pos hmark]

theorem exponentNext_of_char {p p' : Parser} {c : MojByte} {state : State} (h : exponentChar p c = .ok (state, p')) :
    exponentNext c = some state := by
  unfold exponentChar at h
  unfold exponentNext
  cases hdigit : digit? c with
  | some x =>
    rw [hdigit] at h
    obtain ⟨q, -, hq⟩ := bind_eq_ok.mp h
    cases hq
    rfl
  | none =>
    rw [hdigit] at h
    cases h

/-- A step that the parser does not end is one of the lexer alone. -/
theorem next_of_step {s : State × Parser} {p' : Parser} {c : MojByte} {state : State} (h : step s c = .ok (state, p')) :
    next s.1 c = some state := by
  obtain ⟨state₀, p⟩ := s
  cases state₀ with
  | stateNumber =>
    simp only [step] at h
    simp only [next]
    split_ifs at h with hminus hplus hdigit
    · cases h
      rw [if_pos (.inl hminus)]
    · cases h
      rw [if_pos (.inr hplus)]
    · rw [if_neg (not_or.mpr ⟨hminus, hplus⟩), if_neg hdigit]
      exact magnitudeNext_of_char h
  | stateMagnitude => exact magnitudeNext_of_char h
  | stateMagnitudeDigits => exact magnitudeNext_of_char h
  | stateFraction =>
    simp only [step] at h
    simp only [next]
    cases hdigit : digit? c with
    | some x =>
      rw [hdigit] at h
      obtain ⟨q, -, hq⟩ := bind_eq_ok.mp h
      cases hq
      rfl
    | none =>
      rw [hdigit] at h
      cases h
  | stateFractionDigits =>
    simp only [step] at h
    simp only [next]
    cases hdigit : digit? c with
    | some x =>
      rw [hdigit] at h
      obtain ⟨q, -, hq⟩ := bind_eq_ok.mp h
      cases hq
      rfl
    | none =>
      rw [hdigit] at h
      dsimp only at h
      split_ifs at h with hmark
      cases h
      rw [if_neg (by simp), if_pos hmark]
  | stateExponent =>
    simp only [step] at h
    simp only [next]
    split_ifs at h with hminus hplus
    · cases h
      rw [if_pos (.inl hminus)]
    · cases h
      rw [if_pos (.inr hplus)]
    · rw [if_neg (not_or.mpr ⟨hminus, hplus⟩)]
      exact exponentNext_of_char h
  | stateExponentFirstDigit => exact exponentNext_of_char h
  | stateExponentDigits => exact exponentNext_of_char h

/-- **A text that is read to its end is accepted.** -/
theorem accepts_of_parse {number : List MojByte} {p : Parser} (h : parse number = .ok p) : Accepts number := by
  obtain ⟨⟨state, q⟩, hfold, hend⟩ := bind_eq_ok.mp h
  have hrun : ∀ (cs : List MojByte) (s : State × Parser), cs.foldlM step s = .ok (state, q) →
      cs.foldlM next s.1 = some state := by
    intro cs
    induction cs with
    | nil =>
      intro s hs
      cases hs
      rfl
    | cons c cs ih =>
      intro s hs
      obtain ⟨⟨state', q'⟩, hstep, hs⟩ := bind_eq_ok.mp hs
      rw [List.foldlM_cons, next_of_step hstep]
      exact ih _ hs
  refine ⟨state, hrun number _ hfold, ?_⟩
  dsimp only at hend
  split_ifs at hend with hfinal
  exact hfinal

end Lexer

namespace Numeral

def signed (num : Numeral) : Parser :=
  if num.sign = some false then { Parser.reset with positive := false } else Parser.reset

/-- The calls of the parser. -/
def run (num : Numeral) : Except MojErr Parser := do
  let p ← num.magnitude.foldlM Parser.digit num.signed
  let p ← num.fraction.foldlM Parser.fractionDigit p
  match num.exponent with
  | none => return p.finish
  | some x => do
    let p := if x.sign = some false then { p with exponentPositive := false } else p
    let p ← x.digits.foldlM Parser.exponentDigit p
    return p.finish

end Numeral

namespace Lexer

theorem foldlM_digits {ds : List Nat} (hds : ∀ d ∈ ds, d < 10) {state : State} {p : Parser} (rest : List MojByte)
    (hstate : state = .stateNumber ∨ state = .stateMagnitude ∨ state = .stateMagnitudeDigits) :
    (ds.map digitChar ++ rest).foldlM step (state, p) =
      (do
        let p ← ds.foldlM Parser.digit p
        rest.foldlM step (if ds = [] then state else .stateMagnitudeDigits, p)) := by
  induction ds generalizing state p with
  | nil => rfl
  | cons d ds ih =>
    have hnext := @ih (fun e he => hds e (List.mem_cons_of_mem d he)) .stateMagnitudeDigits
    rw [List.map_cons, List.cons_append, List.foldlM_cons, step_digit (hds d List.mem_cons_self) hstate,
      List.foldlM_cons, if_neg (List.cons_ne_nil d ds)]
    cases p.digit d with
    | error e => rfl
    | ok q =>
      have hq := @hnext q (.inr (.inr rfl))
      rw [ite_self] at hq
      exact hq

theorem foldlM_fractionDigits {es : List Nat} (hes : ∀ d ∈ es, d < 10) {state : State} {p : Parser} (rest : List MojByte)
    (hne : es ≠ []) (hstate : state = .stateFraction ∨ state = .stateFractionDigits) :
    (es.map digitChar ++ rest).foldlM step (state, p) =
      (do
        let p ← es.foldlM Parser.fractionDigit p
        rest.foldlM step (.stateFractionDigits, p)) := by
  induction es generalizing state p with
  | nil => exact absurd rfl hne
  | cons d es ih =>
    rw [List.map_cons, List.cons_append, List.foldlM_cons, step_fractionDigit (hes d List.mem_cons_self) hstate,
      List.foldlM_cons]
    cases p.fractionDigit d with
    | error e => rfl
    | ok q =>
      cases es with
      | nil => rfl
      | cons e es =>
        exact @ih (fun x hx => hes x (List.mem_cons_of_mem d hx)) .stateFractionDigits q (List.cons_ne_nil e es) (.inr rfl)

theorem step_exponentDigit {state : State} {p : Parser} {d : Nat} (hd : d < 10)
    (hstate : state = .stateExponent ∨ state = .stateExponentFirstDigit ∨ state = .stateExponentDigits) :
    step (state, p) (digitChar d) = (do return (.stateExponentDigits, ← p.exponentDigit d)) := by
  have hchar : exponentChar p (digitChar d) = (do return (.stateExponentDigits, ← p.exponentDigit d)) := by
    simp only [exponentChar, digit?_digitChar hd]
  cases hstate with
  | inl hstate =>
    have hminus : digitChar d ≠ ch '-' := digitChar_ne hd (by decide)
    have hplus : digitChar d ≠ ch '+' := digitChar_ne hd (by decide)
    subst hstate
    simp only [step, hminus, hplus, if_false, hchar]
  | inr hstate =>
    cases hstate with
    | inl hstate =>
      subst hstate
      exact hchar
    | inr hstate =>
      subst hstate
      exact hchar

theorem foldlM_exponentDigits {xs : List Nat} (hxs : ∀ d ∈ xs, d < 10) {state : State} {p : Parser} (hne : xs ≠ [])
    (hstate : state = .stateExponent ∨ state = .stateExponentFirstDigit ∨ state = .stateExponentDigits) :
    (xs.map digitChar).foldlM step (state, p) =
      (do
        let p ← xs.foldlM Parser.exponentDigit p
        return (.stateExponentDigits, p)) := by
  induction xs generalizing state p with
  | nil => exact absurd rfl hne
  | cons d xs ih =>
    rw [List.map_cons, List.foldlM_cons, step_exponentDigit (hxs d List.mem_cons_self) hstate, List.foldlM_cons]
    cases p.exponentDigit d with
    | error e => rfl
    | ok q =>
      cases xs with
      | nil => rfl
      | cons e xs =>
        exact @ih (fun x hx => hxs x (List.mem_cons_of_mem d hx)) .stateExponentDigits q (List.cons_ne_nil e xs)
          (.inr (.inr rfl))

theorem foldlM_sign (sign : Option Bool) (rest : List MojByte) :
    (signText sign ++ rest).foldlM step (.stateNumber, Parser.reset) =
      rest.foldlM step (if sign = none then .stateNumber else .stateMagnitude,
        if sign = some false then { Parser.reset with positive := false } else Parser.reset) := by
  cases sign with
  | none => rfl
  | some plus =>
    cases plus with
    | true => rfl
    | false => rfl

theorem foldlM_exponent (x : Exponent) {state : State} (p : Parser)
    (hstate : state = .stateMagnitude ∨ state = .stateMagnitudeDigits ∨ state = .stateFractionDigits) :
    x.text.foldlM step (state, p) =
      (do
        let p ← x.digits.foldlM Parser.exponentDigit
          (if x.sign = some false then { p with exponentPositive := false } else p)
        return (.stateExponentDigits, p)) := by
  have hmark : step (state, p) (if x.capital then ch 'E' else ch 'e') = .ok (.stateExponent, p) := by
    cases x.capital with
    | true =>
      cases hstate with
      | inl hstate =>
        subst hstate
        rfl
      | inr hstate =>
        cases hstate with
        | inl hstate =>
          subst hstate
          rfl
        | inr hstate =>
          subst hstate
          rfl
    | false =>
      cases hstate with
      | inl hstate =>
        subst hstate
        rfl
      | inr hstate =>
        cases hstate with
        | inl hstate =>
          subst hstate
          rfl
        | inr hstate =>
          subst hstate
          rfl
  rw [Exponent.text, List.foldlM_cons, hmark, ok_bind]
  cases hsign : x.sign with
  | none => exact foldlM_exponentDigits x.lt_ten x.ne_nil (.inl rfl)
  | some plus =>
    cases plus with
    | true =>
      have hplus : step (.stateExponent, p) (ch '+') = .ok (.stateExponentFirstDigit, p) := rfl
      rw [signText, List.singleton_append, List.foldlM_cons, hplus, ok_bind]
      exact foldlM_exponentDigits x.lt_ten x.ne_nil (.inr (.inl rfl))
    | false =>
      have hminus : step (.stateExponent, p) (ch '-') =
          .ok (.stateExponentFirstDigit, { p with exponentPositive := false }) := rfl
      rw [signText, List.singleton_append, List.foldlM_cons, hminus, ok_bind]
      exact foldlM_exponentDigits x.lt_ten x.ne_nil (.inr (.inl rfl))

end Lexer

namespace Numeral

open Lexer

/-- The last calls: the digits of the exponent, if there is one, and `end`. -/
def runExponent (num : Numeral) (p : Parser) : Except MojErr Parser :=
  match num.exponent with
  | none => return p.finish
  | some x => do
    let p := if x.sign = some false then { p with exponentPositive := false } else p
    let p ← x.digits.foldlM Parser.exponentDigit p
    return p.finish

/-- The end of `Lexer::parse`. -/
def atEnd (s : State × Parser) : Except MojErr Parser :=
  if s.1 = .stateMagnitudeDigits ∨ s.1 = .stateFractionDigits ∨ s.1 = .stateExponentDigits then return s.2.finish
  else .error .invalidDecimal

theorem foldlM_exponentText (num : Numeral) {state : State} (p : Parser)
    (hstate : state = .stateMagnitude ∨ state = .stateMagnitudeDigits ∨ state = .stateFractionDigits)
    (hend : num.exponent = none → state ≠ .stateMagnitude) :
    (num.exponentText.foldlM step (state, p) >>= atEnd) = num.runExponent p := by
  unfold exponentText runExponent
  cases hexponent : num.exponent with
  | none =>
    have hfinal := hstate.resolve_left (hend hexponent)
    rw [Option.map_none, Option.getD_none, List.foldlM_nil]
    change atEnd (state, p) = _
    rw [atEnd, if_pos (hfinal.imp_right .inl)]
  | some x =>
    rw [Option.map_some, Option.getD_some, foldlM_exponent x p hstate, bind_assoc]
    rfl

/-- **The lexer hands the digits to the parser.** -/
theorem parse_text (num : Numeral) : Lexer.parse num.text = num.run := by
  have hparse : Lexer.parse num.text = num.text.foldlM step (.stateNumber, Parser.reset) >>= atEnd := rfl
  have hbegins := num.begins
  rw [hparse, text, foldlM_sign, foldlM_digits num.magnitude_lt, bind_assoc]
  · rw [run, signed]
    refine bind_congr fun p => ?_
    change _ = num.fraction.foldlM Parser.fractionDigit p >>= num.runExponent
    -- the state behind the digits before the point
    have hstate : (if num.magnitude = [] then if num.sign = none then State.stateNumber else .stateMagnitude
        else .stateMagnitudeDigits) = .stateMagnitude ∧ num.magnitude = [] ∨
      (if num.magnitude = [] then if num.sign = none then State.stateNumber else .stateMagnitude
        else .stateMagnitudeDigits) = .stateMagnitudeDigits := by
      by_cases hmagnitude : num.magnitude = []
      · have hsign : num.sign ≠ none := Option.isSome_iff_ne_none.mp (hbegins.resolve_left (not_not.mpr hmagnitude)).1
        rw [if_pos hmagnitude, if_neg hsign]
        exact .inl ⟨rfl, hmagnitude⟩
      · rw [if_neg hmagnitude]
        exact .inr rfl
    generalize (if num.magnitude = [] then if num.sign = none then State.stateNumber else .stateMagnitude
        else .stateMagnitudeDigits) = state at hstate ⊢
    by_cases hfraction : num.fraction = []
    · rw [fractionText, if_pos hfraction, List.nil_append, hfraction, List.foldlM_nil]
      refine num.foldlM_exponentText p ?_ ?_
      · exact hstate.imp And.left .inl
      · intro hexponent hmagnitude
        cases hstate with
        | inl hempty =>
          cases (hbegins.resolve_left (not_not.mpr hempty.2)).2 with
          | inl hne => exact hne hfraction
          | inr hsome =>
            rw [hexponent] at hsome
            cases hsome
        | inr hdigits =>
          rw [hdigits] at hmagnitude
          cases hmagnitude
    · have hpoint : step (state, p) (ch '.') = .ok (.stateFraction, p) := by
        cases hstate with
        | inl hempty =>
          rw [hempty.1]
          rfl
        | inr hdigits =>
          rw [hdigits]
          rfl
      rw [fractionText, if_neg hfraction, List.cons_append, List.foldlM_cons, hpoint, ok_bind,
        foldlM_fractionDigits num.fraction_lt num.exponentText hfraction (.inl rfl), bind_assoc]
      exact bind_congr fun q => num.foldlM_exponentText q (.inr (.inr rfl)) fun _ h => by cases h
  · split_ifs
    · exact .inl rfl
    · exact .inr (.inl rfl)

end Numeral

/-! ## Every accepted text is a number in its parts -/

namespace Lexer

/-- The rest of an accepted text. -/
def Runs (state : State) (cs : List MojByte) : Prop := ∃ last, cs.foldlM next state = some last ∧ Final last

theorem runs_nil {state : State} : Runs state [] ↔ Final state := by
  simp [Runs]

theorem runs_cons {state : State} {c : MojByte} {cs : List MojByte} :
    Runs state (c :: cs) ↔ ∃ state', next state c = some state' ∧ Runs state' cs := by
  unfold Runs
  rw [List.foldlM_cons]
  cases next state c with
  | none => simp
  | some state' => simp

theorem exists_digitChar {c : MojByte} (h : (digit? c).isSome) : ∃ d < 10, c = digitChar d := by
  obtain ⟨d, hd⟩ := Option.isSome_iff_exists.mp h
  refine ⟨d, digit?_lt hd, Fin.ext ?_⟩
  rw [digitChar_val (digit?_lt hd)]
  unfold digit? at hd
  split_ifs at hd with hrange
  obtain rfl := Option.some.inj hd
  omega

def IsDigits (cs : List MojByte) (ds : List Nat) : Prop := (∀ d ∈ ds, d < 10) ∧ cs = ds.map digitChar

theorem exists_cons_digits {c : MojByte} {cs : List MojByte} {ds : List Nat} (hc : (digit? c).isSome)
    (hds : IsDigits cs ds) : ∃ d, IsDigits (c :: cs) (d :: ds) := by
  obtain ⟨d, hd, hchar⟩ := exists_digitChar hc
  refine ⟨d, ?_, by rw [hchar, hds.2, List.map_cons]⟩
  intro e he
  cases List.mem_cons.mp he with
  | inl he => exact he ▸ hd
  | inr he => exact hds.1 e he

theorem exists_exponentDigits {cs : List MojByte} (h : Runs .stateExponentDigits cs) : ∃ ds, IsDigits cs ds := by
  induction cs with
  | nil => exact ⟨[], by simp [IsDigits]⟩
  | cons c cs ih =>
    obtain ⟨state, hnext, hruns⟩ := runs_cons.mp h
    simp only [next, exponentNext] at hnext
    split_ifs at hnext with hdigit
    obtain rfl := Option.some.inj hnext
    obtain ⟨ds, hds⟩ := ih hruns
    obtain ⟨d, hcons⟩ := exists_cons_digits hdigit hds
    exact ⟨d :: ds, hcons⟩

theorem exists_firstDigit {cs : List MojByte} (h : Runs .stateExponentFirstDigit cs) :
    ∃ ds, IsDigits cs ds ∧ ds ≠ [] := by
  cases cs with
  | nil => exact absurd (runs_nil.mp h) (by decide)
  | cons c cs =>
    obtain ⟨state, hnext, hruns⟩ := runs_cons.mp h
    simp only [next, exponentNext] at hnext
    split_ifs at hnext with hdigit
    obtain rfl := Option.some.inj hnext
    obtain ⟨ds, hds⟩ := exists_exponentDigits hruns
    obtain ⟨d, hcons⟩ := exists_cons_digits hdigit hds
    exact ⟨d :: ds, hcons, List.cons_ne_nil d ds⟩

theorem exists_exponent {c : MojByte} {cs : List MojByte} (hc : c = ch 'e' ∨ c = ch 'E') (h : Runs .stateExponent cs) :
    ∃ x : Exponent, x.text = c :: cs := by
  have hmark : (if decide (c = ch 'E') then ch 'E' else ch 'e') = c := by
    cases hc with
    | inl hc =>
      rw [hc]
      decide
    | inr hc =>
      rw [hc]
      decide
  cases cs with
  | nil => exact absurd (runs_nil.mp h) (by decide)
  | cons d cs =>
    obtain ⟨state, hnext, hruns⟩ := runs_cons.mp h
    simp only [next, exponentNext] at hnext
    split_ifs at hnext with hsign hdigit
    · obtain rfl := Option.some.inj hnext
      obtain ⟨ds, ⟨hlt, hcs⟩, hne⟩ := exists_firstDigit hruns
      cases hsign with
      | inl hminus =>
        refine ⟨⟨decide (c = ch 'E'), some false, ds, hlt, hne⟩, ?_⟩
        rw [Exponent.text, hmark, hcs, hminus]
        rfl
      | inr hplus =>
        refine ⟨⟨decide (c = ch 'E'), some true, ds, hlt, hne⟩, ?_⟩
        rw [Exponent.text, hmark, hcs, hplus]
        rfl
    · obtain rfl := Option.some.inj hnext
      obtain ⟨ds, hds⟩ := exists_exponentDigits hruns
      obtain ⟨e, hlt, hcs⟩ := exists_cons_digits hdigit hds
      refine ⟨⟨decide (c = ch 'E'), none, e :: ds, hlt, List.cons_ne_nil e ds⟩, ?_⟩
      rw [Exponent.text, hmark, hcs]
      rfl

/-- The text behind the digits before the point. -/
def tailText (fraction : List Nat) (exponent : Option Exponent) : List MojByte :=
  (if fraction = [] then [] else ch '.' :: fraction.map digitChar) ++ (exponent.map Exponent.text).getD []

theorem exists_fractionDigits {cs : List MojByte} (h : Runs .stateFractionDigits cs) :
    ∃ (es : List Nat) (exponent : Option Exponent), (∀ d ∈ es, d < 10) ∧
      cs = es.map digitChar ++ (exponent.map Exponent.text).getD [] := by
  induction cs with
  | nil => exact ⟨[], none, by simp⟩
  | cons c cs ih =>
    obtain ⟨state, hnext, hruns⟩ := runs_cons.mp h
    simp only [next] at hnext
    split_ifs at hnext with hdigit hmark
    · obtain rfl := Option.some.inj hnext
      obtain ⟨es, exponent, hes, hcs⟩ := ih hruns
      obtain ⟨d, hd, hchar⟩ := exists_digitChar hdigit
      refine ⟨d :: es, exponent, ?_, ?_⟩
      · intro e he
        cases List.mem_cons.mp he with
        | inl he => exact he ▸ hd
        | inr he => exact hes e he
      · rw [hchar, hcs, List.map_cons, List.cons_append]
    · obtain rfl := Option.some.inj hnext
      obtain ⟨x, hx⟩ := exists_exponent hmark hruns
      exact ⟨[], some x, by simp, hx.symm⟩

theorem exists_fraction {cs : List MojByte} (h : Runs .stateFraction cs) :
    ∃ (es : List Nat) (exponent : Option Exponent), (∀ d ∈ es, d < 10) ∧ es ≠ [] ∧
      cs = es.map digitChar ++ (exponent.map Exponent.text).getD [] := by
  cases cs with
  | nil => exact absurd (runs_nil.mp h) (by decide)
  | cons c cs =>
    obtain ⟨state, hnext, hruns⟩ := runs_cons.mp h
    simp only [next] at hnext
    split_ifs at hnext with hdigit
    obtain rfl := Option.some.inj hnext
    obtain ⟨es, exponent, hes, hcs⟩ := exists_fractionDigits hruns
    obtain ⟨d, hd, hchar⟩ := exists_digitChar hdigit
    refine ⟨d :: es, exponent, ?_, List.cons_ne_nil d es, ?_⟩
    · intro e he
      cases List.mem_cons.mp he with
      | inl he => exact he ▸ hd
      | inr he => exact hes e he
    · rw [hchar, hcs, List.map_cons, List.cons_append]

/-- One character where digits before the point may stand. -/
theorem exists_magnitude_cons {c : MojByte} {cs : List MojByte} {state : State} (hnext : magnitudeNext c = some state)
    (hruns : Runs state cs)
    (ih : Runs .stateMagnitudeDigits cs → ∃ (ds es : List Nat) (exponent : Option Exponent),
      (∀ d ∈ ds, d < 10) ∧ (∀ d ∈ es, d < 10) ∧
      cs = ds.map digitChar ++ tailText es exponent) :
    ∃ (ds es : List Nat) (exponent : Option Exponent), (∀ d ∈ ds, d < 10) ∧ (∀ d ∈ es, d < 10) ∧
      (ds ≠ [] ∨ es ≠ [] ∨ exponent.isSome) ∧ c :: cs = ds.map digitChar ++ tailText es exponent := by
  unfold magnitudeNext at hnext
  split_ifs at hnext with hdigit hpoint hmark
  · obtain rfl := Option.some.inj hnext
    obtain ⟨ds, es, exponent, hds, hes, hcs⟩ := ih hruns
    obtain ⟨d, hd, hchar⟩ := exists_digitChar hdigit
    refine ⟨d :: ds, es, exponent, ?_, hes, .inl (List.cons_ne_nil d ds), ?_⟩
    · intro e he
      cases List.mem_cons.mp he with
      | inl he => exact he ▸ hd
      | inr he => exact hds e he
    · rw [hchar, hcs, List.map_cons, List.cons_append]
  · obtain rfl := Option.some.inj hnext
    obtain ⟨es, exponent, hes, hne, hcs⟩ := exists_fraction hruns
    refine ⟨[], es, exponent, by simp, hes, .inr (.inl hne), ?_⟩
    rw [tailText, if_neg hne, hpoint, hcs]
    rfl
  · obtain rfl := Option.some.inj hnext
    obtain ⟨x, hx⟩ := exists_exponent hmark hruns
    exact ⟨[], [], some x, by simp, by simp, .inr (.inr rfl), hx.symm⟩

theorem exists_magnitudeDigits {cs : List MojByte} (h : Runs .stateMagnitudeDigits cs) :
    ∃ (ds es : List Nat) (exponent : Option Exponent), (∀ d ∈ ds, d < 10) ∧
      (∀ d ∈ es, d < 10) ∧ cs = ds.map digitChar ++ tailText es exponent := by
  induction cs with
  | nil => exact ⟨[], [], none, by simp, by simp, rfl⟩
  | cons c cs ih =>
    obtain ⟨state, hnext, hruns⟩ := runs_cons.mp h
    obtain ⟨ds, es, exponent, hds, hes, -, hcs⟩ := exists_magnitude_cons hnext hruns ih
    exact ⟨ds, es, exponent, hds, hes, hcs⟩

/-- **The accepted texts** are the numbers in their parts. -/
theorem exists_numeral {number : List MojByte} (h : Accepts number) : ∃ num : Numeral, num.text = number := by
  cases number with
  | nil => exact absurd (runs_nil.mp h) (by decide)
  | cons c cs =>
    obtain ⟨state, hnext, hruns⟩ := runs_cons.mp h
    simp only [next] at hnext
    split_ifs at hnext with hsign hdigit
    · obtain rfl := Option.some.inj hnext
      cases cs with
      | nil => exact absurd (runs_nil.mp hruns) (by decide)
      | cons d cs =>
        obtain ⟨state', hnext', hruns'⟩ := runs_cons.mp hruns
        obtain ⟨ds, es, exponent, hds, hes, hbegins, hcs⟩ := exists_magnitude_cons hnext' hruns' exists_magnitudeDigits
        have hsome : ∀ b : Bool, ds ≠ [] ∨ (some b).isSome ∧ (es ≠ [] ∨ exponent.isSome) :=
          fun b => hbegins.imp_right fun h => ⟨rfl, h⟩
        cases hsign with
        | inl hminus =>
          refine ⟨⟨some false, ds, es, exponent, hds, hes, hsome false⟩, ?_⟩
          rw [hminus, hcs]
          rfl
        | inr hplus =>
          refine ⟨⟨some true, ds, es, exponent, hds, hes, hsome true⟩, ?_⟩
          rw [hplus, hcs]
          rfl
    · have hsome : (digit? c).isSome := Option.isSome_iff_ne_none.mpr (by simpa using hdigit)
      have hfirst : magnitudeNext c = some .stateMagnitudeDigits := by
        rw [magnitudeNext, if_pos hsome]
      rw [hfirst] at hnext
      obtain rfl := Option.some.inj hnext
      obtain ⟨ds, es, exponent, hds, hes, hcs⟩ := exists_magnitudeDigits hruns
      obtain ⟨d, hd, hchar⟩ := exists_digitChar hsome
      refine ⟨⟨none, d :: ds, es, exponent, ?_, hes, .inl (List.cons_ne_nil d ds)⟩, ?_⟩
      · intro e he
        cases List.mem_cons.mp he with
        | inl he => exact he ▸ hd
        | inr he => exact hds e he
      · rw [hchar, hcs]
        rfl

end Lexer

/-! ## Digits that the parser holds -/

/-- The number without the zeros at its end, and how many these are. -/
def push (s : Nat × Nat) (d : Nat) : Nat × Nat :=
  if s.1 ≠ 0 ∧ d = 0 then (s.1, s.2 + 1) else (s.1 * 10 ^ s.2 * 10 + d, 0)

/-- Before a digit other than a zero behind the value, the number is one that a digit can be put behind; and the zeros behind
the value can be counted. -/
def Held : Nat × Nat → List Nat → Prop
  | _, [] => True
  | s, d :: ds => (if s.1 ≠ 0 ∧ d = 0 then s.2 < 2147483647 else s.1 * 10 ^ s.2 ≤ Parser.bound) ∧ Held (push s d) ds

/-- At the first digit at which this is not so, the number is still too great when 2^64 is lost of it. -/
def Caught : Nat × Nat → List Nat → Prop
  | _, [] => True
  | s, d :: ds =>
    if s.1 ≠ 0 ∧ d = 0 then s.2 < 2147483647 → Caught (push s d) ds
    else if s.1 * 10 ^ s.2 ≤ Parser.bound then Caught (push s d) ds
    else s.1 * 10 ^ s.2 % 2 ^ 64 > Parser.bound

/-- Behind the point, every digit is put behind the number. -/
def FractionHeld : Nat → List Nat → Prop
  | _, [] => True
  | n, d :: ds => n ≤ Parser.bound ∧ FractionHeld (n * 10 + d) ds

theorem bound_eq : Parser.bound = 1844674407370955160 := by decide

theorem push_value (s : Nat × Nat) (d : Nat) : (push s d).1 * 10 ^ (push s d).2 = s.1 * 10 ^ s.2 * 10 + d := by
  unfold push
  split_ifs with h
  · dsimp only
    rw [pow_succ, h.2]
    ring
  · simp

theorem foldl_push_value (s : Nat × Nat) (ds : List Nat) :
    (ds.foldl push s).1 * 10 ^ (ds.foldl push s).2 = numeral (s.1 * 10 ^ s.2) ds := by
  induction ds generalizing s with
  | nil => rfl
  | cons d ds ih => rw [List.foldl_cons, ih, push_value, numeral, numeral, List.foldl_cons]

namespace Parser

theorem realignValue_eq {p : Parser} {z : Nat} (hz : p.valueExp = z) (hfits : p.value < 2 ^ 64) :
    p.realignValue = { p with value := p.value * 10 ^ z % 2 ^ 64, valueExp := 0 } := by
  unfold realignValue
  split_ifs with hpos
  · have hnat : p.valueExp.toNat = z := by omega
    have hmod : p.value * npow base p.valueExp.toNat % 2 ^ 64 = p.value * 10 ^ z % 2 ^ 64 := by
      rw [hnat, npow, Nat.mul_mod_mod]
      rfl
    rw [hmod]
  · obtain rfl : z = 0 := by omega
    have hzero : p.valueExp = 0 := hz
    rw [pow_zero, Nat.mul_one, Nat.mod_eq_of_lt hfits, ← hzero]

/-- The digits before the point, from a value with `z` zeros behind it. -/
theorem foldlM_digit {ds : List Nat} (hds : ∀ d ∈ ds, d < 10) {p : Parser} {z : Nat} (hz : p.valueExp = z)
    (hmax : z ≤ 2147483647) (hfits : p.value < 2 ^ 64) :
    (Held (p.value, z) ds → (ds.foldl push (p.value, z)).1 < 2 ^ 64 ∧
      ds.foldlM digit p = .ok { p with
        value := (ds.foldl push (p.value, z)).1, valueExp := (ds.foldl push (p.value, z)).2 }) ∧
      (¬Held (p.value, z) ds → Caught (p.value, z) ds → ds.foldlM digit p = .error .valueOutOfRange) := by
  induction ds generalizing p z with
  | nil =>
    refine ⟨fun _ => ⟨hfits, ?_⟩, fun h => absurd trivial h⟩
    rw [List.foldl_nil, List.foldlM_nil, ← hz]
    rfl
  | cons d ds ih =>
    have hd := hds d List.mem_cons_self
    have hrest := @ih fun e he => hds e (List.mem_cons_of_mem d he)
    rw [List.foldlM_cons, List.foldl_cons, Held, Caught, digit]
    by_cases hzero : p.value ≠ 0 ∧ d = 0
    · have hpush : push (p.value, z) d = (p.value, z + 1) := if_pos hzero
      rw [if_pos hzero, if_pos hzero, if_pos hzero, hpush]
      by_cases hlast : z = 2147483647
      · rw [if_pos (by rw [hz, hlast]; rfl)]
        exact ⟨fun h => absurd (hlast ▸ h.1) (Nat.lt_irrefl 2147483647), fun _ _ => rfl⟩
      · have hlt : z < 2147483647 := by omega
        have hnext : p.valueExp + 1 = ((z + 1 : Nat) : Int) := by
          rw [hz]
          rfl
        rw [if_neg (by rw [hz, INT_MAX]; omega), ok_bind]
        obtain ⟨hok, herror⟩ := @hrest { p with valueExp := p.valueExp + 1 } (z + 1) hnext (by omega) hfits
        exact ⟨fun h => hok h.2, fun h hcaught => herror (fun hheld => h ⟨hlt, hheld⟩) (hcaught hlt)⟩
    · have hpush : push (p.value, z) d = (p.value * 10 ^ z * 10 + d, 0) := if_neg hzero
      rw [if_neg hzero, if_neg hzero, if_neg hzero, hpush, realignValue_eq hz hfits, pushDigit]
      dsimp only
      by_cases hbound : p.value * 10 ^ z ≤ bound
      · have hsmall : p.value * 10 ^ z < 2 ^ 64 := by
          rw [bound_eq] at hbound
          omega
        have hnew : p.value * 10 ^ z * 10 + d < 2 ^ 64 := by
          rw [bound_eq] at hbound
          omega
        rw [Nat.mod_eq_of_lt hsmall, if_neg (Nat.not_lt.mpr hbound), ok_bind, if_pos hbound]
        obtain ⟨hok, herror⟩ :=
          @hrest { p with value := p.value * 10 ^ z * base + d, valueExp := 0 } 0 rfl (by decide) hnew
        exact ⟨fun h => hok h.2, fun h hcaught => herror (fun hheld => h ⟨hbound, hheld⟩) hcaught⟩
      · rw [if_neg hbound]
        refine ⟨fun h => absurd h.1 hbound, fun _ hcaught => ?_⟩
        rw [if_pos hcaught]
        rfl

/-- The digits behind the point, none of them postponed. -/
theorem foldlM_fractionDigit {es : List Nat} (hes : ∀ d ∈ es, d < 10) {p : Parser} {k : Nat} (hk : p.valueExp = -(k : Int))
    (hfits : p.value < 2 ^ 64) :
    (FractionHeld p.value es → numeral p.value es < 2 ^ 64 ∧ es.foldlM fractionDigit p =
      .ok { p with value := numeral p.value es, valueExp := -((k + es.length : Nat) : Int) }) ∧
      (¬FractionHeld p.value es → es.foldlM fractionDigit p = .error .valueOutOfRange) := by
  induction es generalizing p k with
  | nil =>
    refine ⟨fun _ => ⟨hfits, ?_⟩, fun h => absurd trivial h⟩
    rw [List.foldlM_nil, List.length_nil, Nat.add_zero, ← hk]
    rfl
  | cons d es ih =>
    have hd := hes d List.mem_cons_self
    have hrest := @ih fun e he => hes e (List.mem_cons_of_mem d he)
    have hreal : p.realignValue = p := if_neg (by omega)
    rw [List.foldlM_cons, FractionHeld, fractionDigit, hreal, pushDigit]
    dsimp only
    by_cases hbound : p.value ≤ bound
    · have hnew : p.value * 10 + d < 2 ^ 64 := by
        rw [bound_eq] at hbound
        omega
      have hexp : p.valueExp - 1 = -((k + 1 : Nat) : Int) := by
        rw [hk]
        omega
      have hlen : k + (d :: es).length = k + 1 + es.length := by
        rw [List.length_cons]
        omega
      rw [if_neg (Nat.not_lt.mpr hbound), ok_bind, hlen]
      obtain ⟨hok, herror⟩ := @hrest { p with value := p.value * base + d, valueExp := p.valueExp - 1 } (k + 1) hexp hnew
      exact ⟨fun h => hok h.2, fun h => herror fun hheld => h ⟨hbound, hheld⟩⟩
    · rw [if_pos (Nat.lt_of_not_le hbound)]
      exact ⟨fun h => absurd h.1 hbound, fun _ => rfl⟩

theorem realignValue_idem (p : Parser) : p.realignValue.realignValue = p.realignValue := by
  by_cases hpos : p.valueExp > 0
  · have hreal : p.realignValue.valueExp = 0 := by
      rw [realignValue, if_pos hpos]
    exact if_neg (by omega)
  · have hreal : p.realignValue = p := if_neg hpos
    rw [hreal, hreal]

/-- The digits behind the point, when zeros have been postponed before it. -/
theorem foldlM_fractionDigit_of_zeros {es : List Nat} (hes : ∀ d ∈ es, d < 10) (hne : es ≠ []) {p : Parser} {z n : Nat}
    (hz : p.valueExp = z) (hfits : p.value < 2 ^ 64) (hn : p.value * 10 ^ z = n) :
    (FractionHeld n es → numeral n es < 2 ^ 64 ∧ es.foldlM fractionDigit p =
      .ok { p with value := numeral n es, valueExp := -((es.length : Nat) : Int) }) ∧
      (¬FractionHeld n es → n ≤ bound ∨ bound < n % 2 ^ 64 → es.foldlM fractionDigit p = .error .valueOutOfRange) := by
  obtain ⟨d, es, rfl⟩ := List.exists_cons_of_ne_nil hne
  have hreal := realignValue_eq hz hfits
  have hsame : (d :: es).foldlM fractionDigit p = (d :: es).foldlM fractionDigit p.realignValue := by
    rw [List.foldlM_cons, List.foldlM_cons, fractionDigit, fractionDigit, realignValue_idem]
  rw [hsame, hreal, hn]
  obtain ⟨hok, herror⟩ :=
    @foldlM_fractionDigit (d :: es) hes { p with value := n % 2 ^ 64, valueExp := 0 } 0 rfl (Nat.mod_lt _ (by decide))
  rw [Nat.zero_add] at hok
  by_cases hbound : n ≤ bound
  · have hmod : n % 2 ^ 64 = n := by
      rw [bound_eq] at hbound
      exact Nat.mod_eq_of_lt (by omega)
    dsimp only at hok herror
    rw [hmod] at hok herror ⊢
    exact ⟨hok, fun hnot _ => herror hnot⟩
  · exact ⟨fun hheld => absurd hheld.1 hbound,
      fun _ hcaught => herror fun hheld => absurd hheld.1 (Nat.not_le.mpr (hcaught.resolve_left hbound))⟩

/-- The digits of the exponent. -/
theorem foldlM_exponentDigit {xs : List Nat} (hxs : ∀ d ∈ xs, d < 10) {p : Parser} {m : Nat} (hm : p.exponent = m)
    (hlt : m < 2147483630) :
    (numeral m xs < 2147483630 → xs.foldlM exponentDigit p = .ok { p with exponent := (numeral m xs : Nat) }) ∧
      (¬numeral m xs < 2147483630 → xs.foldlM exponentDigit p = .error .valueOutOfRange) := by
  have hlimit : exponentBound = 214748363 := by decide
  induction xs generalizing p m with
  | nil =>
    refine ⟨fun _ => ?_, fun h => absurd hlt h⟩
    rw [List.foldlM_nil]
    change Except.ok p = Except.ok { p with exponent := (m : Int) }
    rw [← hm]
  | cons d xs ih =>
    have hd := hxs d List.mem_cons_self
    have hrest := @ih fun e he => hxs e (List.mem_cons_of_mem d he)
    have hcons : numeral m (d :: xs) = numeral (m * 10 + d) xs := rfl
    rw [List.foldlM_cons, hcons, exponentDigit]
    by_cases hzero : p.exponent = 0 ∧ d = 0
    · have hsame : m * 10 + d = 0 := by omega
      rw [if_pos hzero, ok_bind, hsame]
      exact hrest (by rw [hzero.1]; rfl) (by decide)
    · rw [if_neg hzero, hlimit]
      by_cases hbig : p.exponent ≥ 214748363
      · have hle := le_numeral (m * 10 + d) xs
        rw [if_pos hbig]
        exact ⟨fun h => absurd h (by omega), fun _ => rfl⟩
      · rw [if_neg hbig, ok_bind]
        have hexp : p.exponent * 10 + (d : Int) = ((m * 10 + d : Nat) : Int) := by
          rw [hm]
          push_cast
          rfl
        exact hrest hexp (by omega)

end Parser

/-! ## Rounding -/

/-- One of the integers nearest to a number. -/
def Nearest (m : Int) (x : ℚ) : Prop := |x - m| ≤ 1 / 2

def FitsInt64 (m : Int) : Prop := -(2 ^ 63) ≤ m ∧ m < 2 ^ 63

instance (m : Int) : Decidable (FitsInt64 m) := inferInstanceAs (Decidable (_ ∧ _))

def signed (positive : Bool) (x : ℚ) : ℚ := if positive then x else -x

/-- What should come of a number of millionths: the nearest integer, or the report that none of the nearest fits. -/
def Right (x : ℚ) : Except MojErr MojDecimal → Prop
  | .ok d => Nearest d.rep.toInt x
  | .error err => err = .valueOutOfRange ∧ ∀ m, Nearest m x → ¬FitsInt64 m

/-- The scaled values that are rounded as they should be: the last digit that is dropped and is looked at is no 5 with other
digits behind it, and a zero has no great exponent. -/
def Rounds (positive : Bool) (v : Nat) (a : Int) : Prop :=
  if a < -18 then a = -19 → v ≤ 5000000000000000000
  else if a < 0 then v / 10 ^ (-a - 1).toNat % 10 = 5 → v % 10 ^ (-a - 1).toNat = 0
  else if a ≤ 18 then positive = false → v * 10 ^ a.toNat ≠ 9223372036854775808
  else v ≠ 0

theorem nearest_signed (positive : Bool) (r : Nat) (x : ℚ) :
    Nearest (if positive then (r : Int) else -r) (signed positive x) ↔ Nearest r x := by
  cases positive with
  | true => rfl
  | false =>
    unfold Nearest signed
    have hneg : (-x - ((-(r : Int) : Int) : ℚ)) = -(x - ((r : Int) : ℚ)) := by
      push_cast
      ring
    rw [if_neg Bool.false_ne_true, if_neg Bool.false_ne_true, hneg, abs_neg]

/-- Twice the distance is at most the divisor. -/
theorem nearest_div {v q P : Nat} (hP : 0 < P) : Nearest q ((v : ℚ) / P) ↔ 2 * v ≤ 2 * q * P + P ∧ 2 * q * P ≤ 2 * v + P := by
  have hpos : (0 : ℚ) < P := by exact_mod_cast hP
  have hcast : (v : ℚ) / P - ((q : Int) : ℚ) = ((v : ℚ) - q * P) / P := by
    push_cast
    field_simp
  unfold Nearest
  rw [hcast, abs_div, abs_of_pos hpos, div_le_iff₀ hpos, abs_le]
  constructor
  · intro ⟨hlow, hhigh⟩
    constructor
    · have h : (2 * v : ℚ) ≤ 2 * q * P + P := by linarith
      exact_mod_cast h
    · have h : (2 * q * P : ℚ) ≤ 2 * v + P := by linarith
      exact_mod_cast h
  · intro ⟨hhigh, hlow⟩
    have h1 : (2 * v : ℚ) ≤ 2 * q * P + P := by exact_mod_cast hhigh
    have h2 : (2 * q * P : ℚ) ≤ 2 * v + P := by exact_mod_cast hlow
    constructor
    · linarith
    · linarith

/-- An integer is the only one that is nearest to it. -/
theorem nearest_int {m n : Int} : Nearest m (n : ℚ) ↔ m = n := by
  unfold Nearest
  constructor
  · intro h
    obtain ⟨hlow, hhigh⟩ := abs_le.mp h
    have h1 : (m : ℚ) < n + 1 := by linarith
    have h2 : (n : ℚ) < m + 1 := by linarith
    have h3 : m < n + 1 := by exact_mod_cast h1
    have h4 : n < m + 1 := by exact_mod_cast h2
    omega
  · intro h
    subst h
    norm_num

/-- The report is right for an integer that does not fit. -/
theorem right_error_iff {n : Int} : Right (n : ℚ) (.error .valueOutOfRange) ↔ ¬FitsInt64 n := by
  constructor
  · intro h
    exact h.2 n (nearest_int.mpr rfl)
  · intro h
    exact ⟨rfl, fun m hm => nearest_int.mp hm ▸ h⟩

theorem signed_nat (positive : Bool) (n : Nat) : signed positive n = ((if positive then (n : Int) else -n : Int) : ℚ) := by
  cases positive with
  | true => simp [signed]
  | false => simp [signed]

theorem toInt_signed {r : Nat} (hr : r < 2 ^ 63) (positive : Bool) :
    (if positive then Int64.ofNat r else -Int64.ofNat r).toInt = if positive then (r : Int) else -r := by
  cases positive with
  | true => exact Int64.toInt_ofNat_of_lt hr
  | false => exact Int64.toInt_neg_ofNat_of_le (by omega)

/-- The digits but the last of those that are too many are dropped, and the last one is rounded. -/
theorem nearest_rounded {v k r : Nat}
    (hr : r = if v / 10 ^ k % 10 * 2 > 10 then v / 10 ^ k / 10 + 1 else v / 10 ^ k / 10) :
    Nearest r ((v : ℚ) / (10 ^ (k + 1) : Nat)) ↔ (v / 10 ^ k % 10 = 5 → v % 10 ^ k = 0) := by
  have hpos : 0 < 10 ^ k := Nat.pow_pos (by decide)
  have hv := Nat.div_add_mod v (10 ^ k)
  have hrest := Nat.mod_lt v hpos
  have hdigit := Nat.div_add_mod (v / 10 ^ k) 10
  have hlt := Nat.mod_lt (v / 10 ^ k) (show 0 < 10 by decide)
  rw [nearest_div (Nat.pow_pos (by decide)), pow_succ]
  generalize 10 ^ k = P at *
  generalize v % P = rest at *
  generalize hq : v / P / 10 = q at *
  generalize hd : v / P % 10 = d at *
  have hsplit : v = P * (10 * q) + P * d + rest := by
    rw [← hv, ← hdigit]
    ring
  have hqP : 2 * q * (P * 10) = 2 * (P * (10 * q)) := by ring
  have hqP' : 2 * (q + 1) * (P * 10) = 2 * (P * (10 * q)) + 20 * P := by ring
  generalize P * (10 * q) = Q at *
  by_cases hup : 5 < d
  · have hlow : P * 6 ≤ P * d := Nat.mul_le_mul_left P hup
    have hhigh : P * d ≤ P * 9 := Nat.mul_le_mul_left P (by omega)
    rw [if_pos (by omega)] at hr
    rw [hr, hqP', hsplit]
    omega
  · rw [if_neg (by omega)] at hr
    rw [hr, hqP, hsplit]
    by_cases hfive : d = 5
    · rw [hfive]
      omega
    · have hhigh : P * d ≤ P * 4 := Nat.mul_le_mul_left P (by omega)
      omega

/-- Digits behind the millionths are dropped, the last of them rounds. -/
theorem toDecimal_right_neg {p : Parser} (hfits : p.value < 2 ^ 64) {k : Nat}
    (ha : Parser.Precision + p.valueExp + p.exponent = -((k + 1 : Nat) : Int)) :
    Right (signed p.positive ((p.value : ℚ) * 10 ^ (-((k + 1 : Nat) : Int)))) p.toDecimal ↔
      Rounds p.positive p.value (-((k + 1 : Nat) : Int)) := by
  unfold Parser.toDecimal Rounds
  dsimp only
  rw [ha]
  have hnat : (- -((k + 1 : Nat) : Int) - 1).toNat = k := by omega
  have hdiv : (p.value : ℚ) * 10 ^ (-((k + 1 : Nat) : Int)) = (p.value : ℚ) / (10 ^ (k + 1) : Nat) := by
    rw [zpow_neg, zpow_natCast, div_eq_mul_inv]
    norm_num
  rw [if_pos (show -((k + 1 : Nat) : Int) < 0 by omega), hdiv, hnat]
  by_cases hsmall : -((k + 1 : Nat) : Int) < -18
  · have hpow : Parser.int64_pow_max = 18 := rfl
    rw [if_pos hsmall, if_pos (by rw [hpow]; omega)]
    change Nearest 0 _ ↔ _
    have hzero : Nearest 0 (signed p.positive ((p.value : ℚ) / (10 ^ (k + 1) : Nat))) ↔
        Nearest ((0 : Nat) : Int) ((p.value : ℚ) / (10 ^ (k + 1) : Nat)) := by
      rw [← nearest_signed p.positive 0]
      cases p.positive with
      | true => rfl
      | false => rfl
    rw [hzero, nearest_div (Nat.pow_pos (by decide))]
    by_cases hlast : k = 18
    · subst hlast
      omega
    · have hbig : 10 ^ 20 ≤ 10 ^ (k + 1) := Nat.pow_le_pow_right (by decide) (by omega)
      omega
  · have hk : k ≤ 17 := by omega
    have hpow : Parser.npow Parser.base k = 10 ^ k := by
      refine Nat.mod_eq_of_lt ((Nat.pow_le_pow_right (by decide) hk).trans_lt ?_)
      decide
    have hdrop : (if -((k + 1 : Nat) : Int) < -1 then p.value / 10 ^ k else p.value) = p.value / 10 ^ k := by
      split_ifs with hone
      · rfl
      · obtain rfl : k = 0 := by omega
        rw [pow_zero, Nat.div_one]
    have hmax : Parser.int64_pow_max = 18 := rfl
    have hbase : Parser.base = 10 := rfl
    rw [if_neg hsmall, if_pos (show -((k + 1 : Nat) : Int) < 0 by omega), if_neg (by rw [hmax]; omega), hpow, hdrop, hbase, ← nearest_rounded rfl]
    generalize hr : (if p.value / 10 ^ k % 10 * 2 > 10 then p.value / 10 ^ k / 10 + 1 else p.value / 10 ^ k / 10) = r
    have hsize : r < 2 ^ 63 := by
      have hle := Nat.div_le_self p.value (10 ^ k)
      rw [← hr]
      split_ifs
      · omega
      · omega
    change Nearest (if p.positive then Int64.ofNat r else -Int64.ofNat r).toInt _ ↔ _
    rw [toInt_signed hsize, nearest_signed]

/-- The millionths are a product, which may be too great. -/
theorem toDecimal_right_nat {p : Parser} {n : Nat}
    (ha : Parser.Precision + p.valueExp + p.exponent = (n : Int)) :
    Right (signed p.positive ((p.value : ℚ) * 10 ^ (n : Int))) p.toDecimal ↔ Rounds p.positive p.value n := by
  unfold Parser.toDecimal Rounds
  dsimp only
  rw [ha]
  have hneg : ¬(n : Int) < 0 := by omega
  have hmul : (p.value : ℚ) * 10 ^ ((n : Nat) : Int) = ((p.value * 10 ^ n : Nat) : ℚ) := by
    rw [zpow_natCast]
    push_cast
    rfl
  have hmax : Parser.int64_pow_max = 18 := rfl
  have hmax64 : Parser.MojInt64Max = 9223372036854775807 := rfl
  have hlow : ¬((n : Nat) : Int) < -18 := by omega
  rw [if_neg hneg, if_neg hlow, if_neg hneg, hmul, signed_nat, Int.toNat_natCast, hmax]
  by_cases hbig : n ≤ 18
  · have hpow : Parser.npow Parser.base n = 10 ^ n := by
      refine Nat.mod_eq_of_lt ((Nat.pow_le_pow_right (by decide) hbig).trans_lt ?_)
      decide
    have hfactor : p.value > Parser.MojInt64Max / 10 ^ n ↔ Parser.MojInt64Max < p.value * 10 ^ n :=
      Nat.div_lt_iff_lt_mul (Nat.pow_pos (by decide))
    have hnot : ¬((n : Nat) : Int) > 18 := by omega
    rw [if_neg hnot, if_pos (show ((n : Nat) : Int) ≤ 18 by omega), hpow]
    generalize p.value * 10 ^ n = N at *
    by_cases hover : p.value > Parser.MojInt64Max / 10 ^ n
    · have hN := hfactor.mp hover
      rw [hmax64] at hN
      rw [if_pos hover, right_error_iff]
      cases p.positive with
      | true =>
        rw [if_pos rfl, FitsInt64]
        simp
        omega
      | false =>
        rw [if_neg Bool.false_ne_true, FitsInt64]
        simp
        omega
    · have hN := mt hfactor.mpr hover
      rw [hmax64] at hN
      rw [if_neg hover]
      change Nearest (if p.positive then Int64.ofNat N else -Int64.ofNat N).toInt _ ↔ _
      rw [toInt_signed (by omega), nearest_int]
      refine iff_of_true rfl fun _ h => ?_
      omega
  · have hgt : ((n : Nat) : Int) > 18 := by omega
    rw [if_pos hgt, if_neg (show ¬((n : Nat) : Int) ≤ 18 by omega), right_error_iff]
    have hpow : 10 ^ 19 ≤ 10 ^ n := Nat.pow_le_pow_right (by decide) (by omega)
    by_cases hzero : p.value = 0
    · rw [hzero, Nat.zero_mul]
      refine iff_of_false (fun h => h ?_) fun h => h rfl
      cases p.positive with
      | true => decide
      | false => decide
    · have hle : 10 ^ n ≤ p.value * 10 ^ n := Nat.le_mul_of_pos_left _ (Nat.pos_of_ne_zero hzero)
      refine iff_of_true (fun h => ?_) hzero
      generalize p.value * 10 ^ n = N at *
      cases hpositive : p.positive with
      | true =>
        rw [hpositive, if_pos rfl] at h
        have hhigh := h.2
        omega
      | false =>
        rw [hpositive, if_neg Bool.false_ne_true] at h
        have hlow := h.1
        omega

/-- **The rounding of a value that the parser holds.** -/
theorem toDecimal_right {p : Parser} (hfits : p.value < 2 ^ 64) {a : Int}
    (ha : Parser.Precision + p.valueExp + p.exponent = a) :
    Right (signed p.positive ((p.value : ℚ) * 10 ^ a)) p.toDecimal ↔ Rounds p.positive p.value a := by
  by_cases hneg : a < 0
  · obtain ⟨k, rfl⟩ : ∃ k : Nat, a = -((k + 1 : Nat) : Int) := ⟨(-a - 1).toNat, by omega⟩
    exact toDecimal_right_neg hfits ha
  · obtain ⟨n, rfl⟩ : ∃ n : Nat, a = n := ⟨a.toNat, by omega⟩
    exact toDecimal_right_nat ha

/-! ## What the digits leave alone -/

namespace Parser

/-- Nothing has been read of an exponent. -/
def NoExponent (p : Parser) : Prop := p.exponent = 0 ∧ p.exponentPositive = true

theorem noExponent_realignValue {p : Parser} (h : p.NoExponent) : p.realignValue.NoExponent := by
  unfold realignValue
  split_ifs
  · exact h
  · exact h

theorem pushDigit_keeps {p : Parser} (h : p.NoExponent) (x : Nat) :
    p.pushDigit x = .error .valueOutOfRange ∨ ∃ q, p.pushDigit x = .ok q ∧ q.NoExponent := by
  unfold pushDigit
  split_ifs
  · exact .inl rfl
  · exact .inr ⟨_, rfl, h⟩

theorem digit_keeps {p : Parser} (h : p.NoExponent) (x : Nat) :
    p.digit x = .error .valueOutOfRange ∨ ∃ q, p.digit x = .ok q ∧ q.NoExponent := by
  unfold digit
  split_ifs
  · exact .inl rfl
  · exact .inr ⟨_, rfl, h⟩
  · exact pushDigit_keeps (noExponent_realignValue h) x

theorem fractionDigit_keeps {p : Parser} (h : p.NoExponent) (x : Nat) :
    p.fractionDigit x = .error .valueOutOfRange ∨ ∃ q, p.fractionDigit x = .ok q ∧ q.NoExponent :=
  pushDigit_keeps (p := { p.realignValue with valueExp := p.realignValue.valueExp - 1 }) (noExponent_realignValue h) x

theorem foldlM_keeps {f : Parser → Nat → Except MojErr Parser}
    (hf : ∀ {p : Parser}, p.NoExponent → ∀ x, f p x = .error .valueOutOfRange ∨ ∃ q, f p x = .ok q ∧ q.NoExponent)
    (ds : List Nat) {p : Parser} (h : p.NoExponent) :
    ds.foldlM f p = .error .valueOutOfRange ∨ ∃ q, ds.foldlM f p = .ok q ∧ q.NoExponent := by
  induction ds generalizing p with
  | nil => exact .inr ⟨p, rfl, h⟩
  | cons d ds ih =>
    rw [List.foldlM_cons]
    obtain herror | ⟨q, hok, hq⟩ := hf h d
    · rw [herror]
      exact .inl rfl
    · rw [hok, ok_bind]
      exact ih hq

end Parser

/-! ## Texts that are read as what they are -/

namespace Numeral

def positive (num : Numeral) : Bool := num.sign ≠ some false

def exponentNumber (num : Numeral) : Nat := (num.exponent.map fun x => numeral 0 x.digits).getD 0

def exponentValue (num : Numeral) : Int :=
  if num.exponent.any fun x => x.sign = some false then -(num.exponentNumber : Int) else num.exponentNumber

/-- The value in millionths. -/
def millionths (num : Numeral) : ℚ :=
  MojNumber.signed num.positive
    (numeral 0 (num.magnitude ++ num.fraction) * 10 ^ (6 - (num.fraction.length : Int) + num.exponentValue))

/-- The digits as the parser keeps them, and the exponent that goes with them. -/
def scaled (num : Numeral) : Nat × Int :=
  if num.fraction = [] then ((num.magnitude.foldl push (0, 0)).1, (num.magnitude.foldl push (0, 0)).2)
  else (numeral 0 (num.magnitude ++ num.fraction), -(num.fraction.length : Int))

def align (num : Numeral) : Int := 6 + num.scaled.2 + num.exponentValue

def DigitsHeld (num : Numeral) : Prop :=
  Held (0, 0) num.magnitude ∧ (num.fraction ≠ [] → FractionHeld (numeral 0 num.magnitude) num.fraction)

/-- No digits are lost without a report. -/
def DigitsCaught (num : Numeral) : Prop :=
  Caught (0, 0) num.magnitude ∧ (num.fraction ≠ [] →
    numeral 0 num.magnitude ≤ Parser.bound ∨ Parser.bound < numeral 0 num.magnitude % 2 ^ 64)

/-- The sums of exponents are numbers of 32 bits. -/
def InInt (num : Numeral) : Prop := |6 + num.scaled.2| ≤ 2147483647 ∧ |num.align| ≤ 2147483647

/-- No digits are lost without a report and no sum of an `int` overflows, unless the exponent is refused; and the digits
behind the point can be counted. -/
structure Sound (num : Numeral) : Prop where
  caught : num.exponentNumber < 2147483630 → num.DigitsCaught ∧ (num.DigitsHeld → num.InInt)
  counted : num.fraction.length ≤ 2147483647

/-- Where the digits and the exponent are held, the value is rounded as it should be; where they are refused, the value is one
that does not fit. -/
structure Kept (num : Numeral) : Prop where
  rounds : num.DigitsHeld ∧ num.exponentNumber < 2147483630 → Rounds num.positive num.scaled.1 num.align
  refused : ¬(num.DigitsHeld ∧ num.exponentNumber < 2147483630) → ∀ m, Nearest m num.millionths → ¬FitsInt64 m

theorem millionths_eq (num : Numeral) :
    num.millionths = MojNumber.signed num.positive (num.scaled.1 * 10 ^ num.align) := by
  unfold millionths align scaled
  split_ifs with hfraction
  · have hvalue := foldl_push_value (0, 0) num.magnitude
    rw [Nat.zero_mul] at hvalue
    rw [hfraction, List.append_nil, ← hvalue, List.length_nil]
    congr 1
    push_cast
    rw [add_right_comm, zpow_add₀ (show (10 : ℚ) ≠ 0 by norm_num) (6 + num.exponentValue), zpow_natCast]
    ring
  · rfl

/-- The parser before the digits of the exponent. -/
def parserOf (num : Numeral) : Parser := ⟨num.positive, num.scaled.1, num.scaled.2, true, 0⟩

theorem foldlM_numeral (num : Numeral) :
    (num.DigitsHeld → num.scaled.1 < 2 ^ 64 ∧
      (num.magnitude.foldlM Parser.digit num.signed >>= fun p => num.fraction.foldlM Parser.fractionDigit p) =
        .ok num.parserOf) ∧
      (¬num.DigitsHeld → num.DigitsCaught →
        (num.magnitude.foldlM Parser.digit num.signed >>= fun p => num.fraction.foldlM Parser.fractionDigit p) =
          .error .valueOutOfRange) := by
  have hstart : num.signed = ⟨num.positive, 0, 0, true, 0⟩ := by
    unfold signed positive
    split_ifs with hsign
    · rw [hsign]
      rfl
    · rw [decide_eq_true hsign]
      rfl
  have hvalue := foldl_push_value (0, 0) num.magnitude
  rw [Nat.zero_mul] at hvalue
  obtain ⟨hok, herror⟩ := @Parser.foldlM_digit num.magnitude num.magnitude_lt ⟨num.positive, 0, 0, true, 0⟩ 0 rfl
    (by decide) (Nat.two_pow_pos 64)
  dsimp only at hok herror
  rw [hstart]
  by_cases hheld : Held (0, 0) num.magnitude
  · obtain ⟨hfits, hdigits⟩ := hok hheld
    rw [hdigits, ok_bind]
    unfold DigitsHeld DigitsCaught parserOf scaled
    by_cases hfraction : num.fraction = []
    · simp only [hfraction, if_true, ne_eq, not_true_eq_false, false_implies, and_true, List.foldlM_nil]
      exact ⟨fun _ => ⟨hfits, rfl⟩, fun h => absurd hheld h⟩
    · obtain ⟨hfok, hferror⟩ := @Parser.foldlM_fractionDigit_of_zeros num.fraction num.fraction_lt hfraction
        ⟨num.positive, (num.magnitude.foldl push (0, 0)).1, (num.magnitude.foldl push (0, 0)).2, true, 0⟩
        (num.magnitude.foldl push (0, 0)).2 (numeral 0 num.magnitude) rfl hfits hvalue
      rw [if_neg hfraction, numeral_append]
      exact ⟨fun h => hfok (h.2 hfraction),
        fun h hcaught => hferror (fun hf => h ⟨hheld, fun _ => hf⟩) (hcaught.2 hfraction)⟩
  · refine ⟨fun h => absurd h.1 hheld, fun _ hcaught => ?_⟩
    rw [herror hheld hcaught.1]
    rfl

/-- The exponent is read, or refused. -/
theorem runExponent_eq (num : Numeral) {q : Parser} (hexponent : q.exponent = 0) (hpositive : q.exponentPositive = true) :
    (num.exponentNumber < 2147483630 → ∃ p, num.runExponent q = .ok p ∧ p.positive = q.positive ∧
      p.value = q.value ∧ p.valueExp = q.valueExp ∧ p.exponent = num.exponentValue) ∧
      (¬num.exponentNumber < 2147483630 → num.runExponent q = .error .valueOutOfRange) := by
  obtain ⟨positive, value, valueExp, exponentPositive, exponent⟩ := q
  obtain rfl : exponent = 0 := hexponent
  obtain rfl : exponentPositive = true := hpositive
  unfold runExponent exponentNumber exponentValue exponentNumber
  cases num.exponent with
  | none => exact ⟨fun _ => ⟨_, rfl, rfl, rfl, rfl, rfl⟩, fun h => absurd (show (0 : Nat) < 2147483630 by decide) h⟩
  | some x =>
    simp only [Option.map_some, Option.getD_some, Option.any_some, decide_eq_true_eq]
    by_cases hsign : x.sign = some false
    · obtain ⟨hok, herror⟩ := @Parser.foldlM_exponentDigit x.digits x.lt_ten ⟨positive, value, valueExp, false, 0⟩ 0 rfl
        (by decide)
      simp only [if_pos hsign]
      refine ⟨fun h => ?_, fun h => ?_⟩
      · rw [hok h]
        exact ⟨_, rfl, rfl, rfl, rfl, rfl⟩
      · rw [herror h]
        rfl
    · obtain ⟨hok, herror⟩ := @Parser.foldlM_exponentDigit x.digits x.lt_ten ⟨positive, value, valueExp, true, 0⟩ 0 rfl
        (by decide)
      simp only [if_neg hsign]
      refine ⟨fun h => ?_, fun h => ?_⟩
      · rw [hok h]
        exact ⟨_, rfl, rfl, rfl, rfl, rfl⟩
      · rw [herror h]
        rfl

theorem assign_eq (num : Numeral) : MojDecimal.assign num.text =
    ((num.magnitude.foldlM Parser.digit num.signed >>= fun p => num.fraction.foldlM Parser.fractionDigit p) >>=
      num.runExponent) >>= Parser.toDecimal := by
  rw [MojDecimal.assign, parse_text, run]
  simp only [bind_assoc]
  rfl

/-- A number whose exponent is refused is refused, whatever its digits are. -/
theorem assign_of_exponent (num : Numeral) (h : ¬num.exponentNumber < 2147483630) :
    MojDecimal.assign num.text = .error .valueOutOfRange := by
  have hstart : num.signed.exponent = 0 ∧ num.signed.exponentPositive = true := by
    unfold signed
    split_ifs
    · exact ⟨rfl, rfl⟩
    · exact ⟨rfl, rfl⟩
  rw [assign_eq]
  obtain hmagnitude | ⟨p, hmagnitude, hp⟩ := Parser.foldlM_keeps Parser.digit_keeps num.magnitude hstart
  · rw [hmagnitude]
    rfl
  · rw [hmagnitude, ok_bind]
    obtain hfraction | ⟨q, hfraction, hq⟩ := Parser.foldlM_keeps Parser.fractionDigit_keeps num.fraction hp
    · rw [hfraction]
      rfl
    · rw [hfraction, ok_bind, (num.runExponent_eq hq.1 hq.2).2 h]
      rfl

/-- The digits and the exponent are read, or refused. -/
theorem assign_text (num : Numeral) (hsound : num.Sound) :
    (num.DigitsHeld ∧ num.exponentNumber < 2147483630 → ∃ p : Parser, MojDecimal.assign num.text = p.toDecimal ∧
      p.value < 2 ^ 64 ∧ p.positive = num.positive ∧ p.value = num.scaled.1 ∧
      Parser.Precision + p.valueExp + p.exponent = num.align) ∧
      (¬(num.DigitsHeld ∧ num.exponentNumber < 2147483630) →
        MojDecimal.assign num.text = .error .valueOutOfRange) := by
  obtain ⟨hread, hrefused⟩ := num.foldlM_numeral
  constructor
  · rintro ⟨hheld, hsmall⟩
    obtain ⟨hfits, hdigits⟩ := hread hheld
    obtain ⟨p, hrun, hpositive, hvalue, hexp, hexponentValue⟩ := (num.runExponent_eq (q := num.parserOf) rfl rfl).1 hsmall
    refine ⟨p, ?_, ?_, hpositive, hvalue, ?_⟩
    · rw [assign_eq, hdigits, ok_bind, hrun, ok_bind]
    · rw [hvalue]
      exact hfits
    · rw [hexp, hexponentValue]
      rfl
  · intro hheld
    by_cases hsmall : num.exponentNumber < 2147483630
    · rw [assign_eq, hrefused (fun hdigits => hheld ⟨hdigits, hsmall⟩) (hsound.caught hsmall).1]
      rfl
    · exact num.assign_of_exponent hsmall

/-- What becomes of a number in its parts. -/
theorem assign_text_right_iff (num : Numeral) (hsound : num.Sound) :
    Right num.millionths (MojDecimal.assign num.text) ↔ num.Kept := by
  obtain ⟨hread, hrefused⟩ := num.assign_text hsound
  by_cases hheld : num.DigitsHeld ∧ num.exponentNumber < 2147483630
  · obtain ⟨p, hassign, hfits, hpositive, hvalue, halign⟩ := hread hheld
    have hright := toDecimal_right hfits halign
    rw [hpositive, hvalue, ← millionths_eq] at hright
    rw [hassign, hright]
    exact ⟨fun h => ⟨fun _ => h, fun hnot => absurd hheld hnot⟩, fun h => h.rounds hheld⟩
  · rw [hrefused hheld]
    exact ⟨fun h => ⟨fun hnot => absurd hnot hheld, fun _ => h.2⟩, fun h => ⟨rfl, h.refused hheld⟩⟩

/-- **What becomes of a text that is accepted**: where it is sound and kept, it is read as the nearest decimal, or reported as
one that has none; and a sound one is so only where it is kept. -/
theorem assign_right_iff (number : List MojByte) :
    (Lexer.Accepts number → ∃ num : Numeral, num.text = number) ∧
      ∀ num : Numeral, num.text = number →
        (num.Sound ∧ num.Kept → Right num.millionths (MojDecimal.assign number)) ∧
        (Right num.millionths (MojDecimal.assign number) → num.Sound → num.Kept) := by
  refine ⟨Lexer.exists_numeral, fun num htext => ?_⟩
  rw [← htext]
  exact ⟨fun h => (assign_text_right_iff num h.1).mpr h.2, fun h hsound => (assign_text_right_iff num hsound).mp h⟩

/-- `-2.5` -/
def minusTwoAndHalf : Numeral := ⟨some false, [2], [5], none, by decide, by decide, .inl (by decide)⟩

theorem sound_minusTwoAndHalf : minusTwoAndHalf.Sound := by
  refine ⟨fun _ => ⟨⟨?_, fun _ => .inl (by decide)⟩, fun _ => ?_⟩, by decide⟩
  · simp [minusTwoAndHalf, Caught, bound_eq]
  · unfold InInt
    decide

/-- `1e3000000000`, of which the exponent is refused -/
def greatExponent : Numeral :=
  ⟨none, [1], [], some ⟨false, none, [3, 0, 0, 0, 0, 0, 0, 0, 0, 0], by decide, by decide⟩, by decide, by decide, .inl (by decide)⟩

theorem kept_minusTwoAndHalf : minusTwoAndHalf.Kept := by
  refine ⟨fun _ => ?_, fun h => absurd ?_ h⟩
  · have hrounds : Rounds false 25 5 := by
      unfold Rounds
      rw [if_neg (by decide), if_neg (by decide), if_pos (by decide)]
      exact fun _ => by decide
    exact hrounds
  · refine ⟨⟨?_, fun _ => ?_⟩, by decide⟩
    · simp [minusTwoAndHalf, Held, bound_eq]
    · simp [minusTwoAndHalf, FractionHeld, numeral, bound_eq]

theorem kept_greatExponent : greatExponent.Kept := by
  refine ⟨fun h => absurd h.2 (by decide), fun _ m hm hfits => ?_⟩
  have halign : greatExponent.align = 3000000006 := by decide
  have hscaled : greatExponent.scaled.1 = 1 := by decide
  have hpositive : greatExponent.positive = true := by decide
  have hgreat : (10 : ℚ) ^ (19 : Int) ≤ (10 : ℚ) ^ greatExponent.align := zpow_le_zpow_right₀ (by norm_num) (by omega)
  rw [millionths_eq, hscaled, hpositive, MojNumber.signed, if_pos rfl, Nat.cast_one, one_mul] at hm
  -- the power is too great to be computed
  generalize (10 : ℚ) ^ greatExponent.align = x at hm hgreat
  have hnear := (abs_le.mp hm).2
  have hbound : (m : ℚ) < 2 ^ 63 := by exact_mod_cast hfits.2
  norm_num at hgreat hbound
  linarith

theorem assign_right_iff_examples :
    Right minusTwoAndHalf.millionths (MojDecimal.assign minusTwoAndHalf.text) ∧
      Right greatExponent.millionths (MojDecimal.assign greatExponent.text) :=
  ⟨((assign_right_iff _).2 minusTwoAndHalf rfl).1 ⟨sound_minusTwoAndHalf, kept_minusTwoAndHalf⟩,
    ((assign_right_iff _).2 greatExponent rfl).1 ⟨⟨fun hsmall => absurd hsmall (by decide), by decide⟩, kept_greatExponent⟩⟩

/-- `0.00000051`, of which the second digit that is too many is not looked at -/
def halfMillionth : Numeral := ⟨none, [0], [0, 0, 0, 0, 0, 0, 5, 1], none, by decide, by decide, .inl (by decide)⟩

theorem not_assign_right_halfMillionth :
    ¬∀ num : Numeral, Lexer.Accepts num.text → Right num.millionths (MojDecimal.assign num.text) := by
  intro h
  have haccepts : Lexer.Accepts halfMillionth.text := ⟨.stateFractionDigits, by decide, by decide⟩
  have hassign : MojDecimal.assign halfMillionth.text = .ok ⟨0⟩ := by rfl
  have hright := h halfMillionth haccepts
  rw [hassign] at hright
  have hmillionths : halfMillionth.millionths = 51 / 100 := by
    rw [millionths_eq]
    change MojNumber.signed true (((51 : Nat) : ℚ) * 10 ^ (-2 : Int)) = _
    norm_num [MojNumber.signed]
  have hdistance : |(51 / 100 : ℚ) - ((0 : Int) : ℚ)| ≤ 1 / 2 := hmillionths ▸ hright
  norm_num [abs_of_pos] at hdistance

end Numeral

end MojNumber

end Db8
