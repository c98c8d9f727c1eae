import Db8.Core.MojJsonText

/-!
# Core.MojJsonTextNumber

What the parser makes of the numbers of a JSON text.

* `integer_text`              — an integer is read to its end; beyond 64 bits it becomes the nearest value that fits.
* `Refused`, `assign_refused` — the decimals that are reported as out of range.
* `numberValue_text`          — the call that a number leads to, or the error.
* `exists_of_isPrefix`        — where a number is cut behind a digit, what is left is a number.
* `numberValue_cut`           — where it is cut elsewhere, the end is an error.
-/

namespace Db8

open Lib MojJsonParser MojNumber MojStrToInt64

namespace MojNumber

/-! ## Decimals that are refused -/

/-- Above the greatest decimal, as the parser finds it. -/
def Parser.Above (v : Nat) (a : Int) : Prop := 0 ≤ a ∧ (18 < a ∨ MojInt64Max < v * 10 ^ a.toNat)

theorem toDecimal_error_iff {p : Parser} {a : Int} (ha : Parser.Precision + p.valueExp + p.exponent = a) :
    (∀ d, p.toDecimal ≠ .ok d) ↔ Parser.Above p.value a := by
  unfold Parser.toDecimal Parser.Above
  dsimp only
  rw [ha]
  have hmax : Parser.int64_pow_max = 18 := rfl
  by_cases hneg : a < 0
  · rw [if_pos hneg]
    refine iff_of_false (fun h => ?_) (by omega)
    by_cases hfar : -a > Parser.int64_pow_max
    · rw [if_pos hfar] at h
      exact h _ rfl
    · rw [if_neg hfar] at h
      exact h _ rfl
  · obtain ⟨n, rfl⟩ : ∃ n : Nat, a = n := ⟨a.toNat, by omega⟩
    rw [if_neg hneg, hmax, Int.toNat_natCast]
    by_cases hbig : ((n : Nat) : Int) > 18
    · rw [if_pos hbig]
      exact iff_of_true (fun d hd => by cases hd) ⟨by omega, .inl hbig⟩
    · have hpow : Parser.npow Parser.base n = 10 ^ n := by
        refine Nat.mod_eq_of_lt ((Nat.pow_le_pow_right (by decide) (show n ≤ 18 by omega)).trans_lt ?_)
        decide
      have hfactor : p.value > Parser.MojInt64Max / 10 ^ n ↔ Parser.MojInt64Max < p.value * 10 ^ n :=
        Nat.div_lt_iff_lt_mul (Nat.pow_pos (by decide))
      rw [if_neg hbig, hpow]
      by_cases hover : p.value > Parser.MojInt64Max / 10 ^ n
      · rw [if_pos hover]
        exact iff_of_true (fun d hd => by cases hd) ⟨by omega, .inr (hfactor.mp hover)⟩
      · rw [if_neg hover]
        refine iff_of_false (fun h => h _ rfl) ?_
        rintro ⟨-, h | h⟩
        · exact hbig h
        · exact hover (hfactor.mpr h)

namespace Numeral

/-- The digits or the exponent are refused, or the value lies above the greatest decimal. -/
def Refused (num : Numeral) : Prop :=
  num.DigitsHeld → num.exponentNumber < 2147483630 → Parser.Above num.scaled.1 num.align

theorem assign_refused_iff {num : Numeral} (hsound : num.Sound) :
    (∀ d, MojDecimal.assign num.text ≠ .ok d) ↔ num.Refused := by
  obtain ⟨hread, hrefused⟩ := num.assign_text hsound
  by_cases hheld : num.DigitsHeld ∧ num.exponentNumber < 2147483630
  · obtain ⟨p, hassign, -, -, hvalue, halign⟩ := hread hheld
    rw [hassign, toDecimal_error_iff halign, hvalue]
    exact ⟨fun h _ _ => h, fun h => h hheld.1 hheld.2⟩
  · rw [hrefused hheld]
    exact iff_of_true (fun d hd => by cases hd) fun h h' => absurd ⟨h, h'⟩ hheld

end Numeral

/-! ## The last character of a number -/

namespace Lexer

theorem digit_of_final {s state : State} {c : MojByte} (h : next s c = some state) (hfinal : Final state) :
    (digit? c).isSome = true := by
  by_contra hnone
  have hmagnitude : ∀ t, magnitudeNext c = some t → ¬Final t := by
    intro t ht
    unfold magnitudeNext at ht
    rw [if_neg hnone] at ht
    split_ifs at ht <;> cases ht <;> decide
  have hexponent : ∀ t, exponentNext c ≠ some t := by
    intro t ht
    unfold exponentNext at ht
    rw [if_neg hnone] at ht
    cases ht
  cases s with
  | stateNumber =>
    simp only [next] at h
    split_ifs at h
    · cases h
      exact absurd hfinal (by decide)
    · exact hmagnitude _ h hfinal
  | stateMagnitude => exact hmagnitude _ h hfinal
  | stateMagnitudeDigits => exact hmagnitude _ h hfinal
  | stateFraction =>
    simp only [next] at h
    split_ifs at h
  | stateFractionDigits =>
    simp only [next] at h
    split_ifs at h
    cases h
    exact absurd hfinal (by decide)
  | stateExponent =>
    simp only [next] at h
    split_ifs at h
    · cases h
      exact absurd hfinal (by decide)
    · exact hexponent _ h
  | stateExponentFirstDigit => exact hexponent _ h
  | stateExponentDigits => exact hexponent _ h

theorem accepts_last {number : List MojByte} (h : Accepts number) {c : MojByte} (hlast : number.getLast? = some c) :
    (digit? c).isSome = true := by
  obtain ⟨front, rfl⟩ := List.getLast?_eq_some_iff.mp hlast
  obtain ⟨state, hrun, hfinal⟩ := h
  rw [List.foldlM_append] at hrun
  obtain ⟨s, -, hstep⟩ := Option.bind_eq_some_iff.mp hrun
  rw [List.foldlM_cons] at hstep
  obtain ⟨t, hnext, hend⟩ := Option.bind_eq_some_iff.mp hstep
  cases hend
  exact digit_of_final hnext hfinal

end Lexer

end MojNumber

/-! ## The text of a number -/

namespace JsonNumber

variable (n : JsonNumber)

def isNegative : Bool := n.num.sign = some false

theorem signText_eq : signText n.num.sign = if n.isNegative then [ch '-'] else [] := by
  unfold isNegative
  cases hsign : n.num.sign with
  | none => rfl
  | some b =>
    cases b with
    | true => exact absurd hsign n.no_plus
    | false => rfl

theorem isNumberChar_signText (sign : Option Bool) : ∀ c ∈ signText sign, isNumberChar c = true ∧ digit? c = none := by
  intro c hc
  rcases sign with _ | _ | _
  · cases hc
  · obtain rfl := List.mem_singleton.mp hc
    exact ⟨by decide, by decide⟩
  · obtain rfl := List.mem_singleton.mp hc
    exact ⟨by decide, by decide⟩

theorem isNumberChar_tail : ∀ c ∈ n.num.fractionText ++ n.num.exponentText, isNumberChar c = true := by
  intro c hc
  rcases List.mem_append.mp hc with hc | hc
  · unfold Numeral.fractionText at hc
    split_ifs at hc
    · cases hc
    · rcases List.mem_cons.mp hc with rfl | hc
      · decide
      · exact isNumberChar_map n.num.fraction_lt c hc
  · unfold Numeral.exponentText at hc
    cases hx : n.num.exponent with
    | none =>
      rw [hx] at hc
      cases hc
    | some x =>
      rw [hx] at hc
      rcases List.mem_cons.mp hc with rfl | hc
      · split_ifs <;> decide
      · rcases List.mem_append.mp hc with hc | hc
        · exact (isNumberChar_signText x.sign c hc).1
        · exact isNumberChar_map x.lt_ten c hc

theorem isNumberChar_text : ∀ c ∈ n.num.text, isNumberChar c = true := by
  intro c hc
  rw [Numeral.text, signText_eq] at hc
  rcases List.mem_append.mp hc with hc | hc
  · split_ifs at hc
    · rw [List.mem_singleton.mp hc]
      decide
    · cases hc
  · rcases List.mem_append.mp hc with hc | hc
    · exact isNumberChar_map n.num.magnitude_lt c hc
    · exact n.isNumberChar_tail c hc

theorem text_first : ∃ c cs, n.num.text = c :: cs ∧ ((digit? c).isSome = true ∨ c = ch '-') := by
  obtain ⟨d, ds, hmagnitude, -⟩ := n.magnitude_eq
  have hd := n.num.magnitude_lt d (by simp [hmagnitude])
  rw [Numeral.text, signText_eq, hmagnitude]
  by_cases hneg : n.isNegative = true
  · rw [if_pos hneg]
    exact ⟨_, _, rfl, .inr rfl⟩
  · rw [if_neg hneg]
    exact ⟨_, _, rfl, .inl (by rw [digit?_digitChar hd]; rfl)⟩

theorem any_isDecimalChar : n.num.text.any isDecimalChar = !n.isInteger := by
  have hsign : (signText n.num.sign).any isDecimalChar = false := by
    rw [signText_eq]
    split_ifs <;> decide
  have hdigits := any_isDecimalChar_map n.num.magnitude_lt
  simp only [Numeral.text, List.any_append, hsign, hdigits, Bool.false_or]
  unfold isInteger Numeral.fractionText Numeral.exponentText
  by_cases hfraction : n.num.fraction = []
  · cases hx : n.num.exponent with
    | none => simp [hfraction]
    | some x =>
      have hmark : isDecimalChar (if x.capital then ch 'E' else ch 'e') = true := by
        split_ifs <;> decide
      simp [hfraction, Exponent.text, hmark]
  · have hpoint : isDecimalChar (ch '.') = true := by decide
    simp [hfraction, hpoint]

/-! ### Integers -/

theorem integer_text_eq (h : n.isInteger = true) :
    n.num.text = (if n.isNegative then [ch '-'] else []) ++ n.num.magnitude.map digitChar := by
  simp only [isInteger, decide_eq_true_eq, Option.isNone_iff_eq_none] at h
  simp [Numeral.text, Numeral.fractionText, Numeral.exponentText, signText_eq, h.1, h.2]

theorem accumulate_magnitude {d : Nat} {ds : List Nat} (hd : ∀ e ∈ d :: ds, e < 10) (hzero : d = 0 → ds = []) :
    accumulate (if digitChar d = ch '0' then 8 else 10) ((d :: ds).map digitChar) 0 = (numeral 0 (d :: ds), []) := by
  by_cases h : d = 0
  · obtain rfl := hzero h
    subst h
    rfl
  · have hne : digitChar d ≠ ch '0' := by
      intro he
      have hval := digitChar_val (hd d List.mem_cons_self)
      rw [he] at hval
      change 48 = 48 + d at hval
      omega
    rw [if_neg hne, accumulate_digits hd]

/-- The digits are read to the end; the value is replaced by the nearest one that fits. -/
theorem integer_text (h : n.isInteger = true) : MojStrToInt64 n.num.text = (clamp n.integer, []) := by
  obtain ⟨d, ds, hmagnitude, hzero⟩ := n.magnitude_eq
  have hlt := n.num.magnitude_lt
  rw [hmagnitude] at hlt
  have hd := hlt d List.mem_cons_self
  have hacc := accumulate_magnitude hlt hzero
  have hminus : digitChar d ≠ ch '-' := digitChar_ne hd (by decide)
  have hplus : digitChar d ≠ ch '+' := digitChar_ne hd (by decide)
  rw [n.integer_text_eq h, hmagnitude]
  unfold integer Numeral.positive
  rw [hmagnitude]
  by_cases hneg : n.num.sign = some false
  · have hnegative : n.isNegative = true := decide_eq_true hneg
    rw [if_pos hnegative, List.singleton_append, MojStrToInt64, dropWhile_isSpace (by decide)]
    simp only [List.head?_cons, List.tail_cons, true_or, if_true, List.map_cons,
      digit?_digitChar hd, Option.isNone_some, Bool.false_eq_true, if_false]
    rw [← List.map_cons, hacc]
    simp [hneg]
  · have hnegative : n.isNegative = false := decide_eq_false hneg
    rw [hnegative, if_neg Bool.false_ne_true, List.nil_append, List.map_cons, MojStrToInt64,
      dropWhile_isSpace (isSpace_digitChar hd)]
    simp only [List.head?_cons, Option.some.injEq, hminus, hplus, or_self, if_false,
      digit?_digitChar hd, Option.isNone_some, Bool.false_eq_true]
    rw [← List.map_cons, hacc]
    simp [hneg]

theorem clamp_of_fits {i : Int} (h : FitsInt64 i) : (clamp i).toInt = i := by
  have hmin : Int64.minValue.toInt = -9223372036854775808 := by decide
  have hmax : Int64.maxValue.toInt = 9223372036854775807 := by decide
  obtain ⟨hlow, hhigh⟩ := h
  rw [clamp, if_neg (by omega), if_neg (by omega)]
  exact Int64.toInt_ofInt_of_le (by omega) (by omega)

/-! ### What the visitor hears -/

/-- A decimal is refused or read. -/
def Taken : Prop := n.isInteger = false → ∃ d, MojDecimal.assign n.num.text = .ok d

/-- The call for a number, if it is taken. -/
def heard : JsonVisit :=
  if n.isInteger then .intValue (clamp n.integer)
  else match MojDecimal.assign n.num.text with
    | .ok d => .decimalValue d
    | .error _ => .decimalValue ⟨0⟩

theorem numberIs_heard (h : n.Taken) : NumberIs n.num.text n.heard := by
  intro p below hp τ visitor
  rw [numberValue, hp.isDecimal_eq, hp.str_eq, n.any_isDecimalChar, heard]
  cases hinteger : n.isInteger with
  | true => simp [n.integer_text hinteger]
  | false =>
    obtain ⟨d, hd⟩ := h hinteger
    simp [hd]

theorem numberValue_of_not_taken (h : ¬n.Taken) : ∃ e, ∀ (p : MojJsonParser) (below : List MojJsonStackRec),
    p.InNumber n.num.text below → ∀ (τ : Type) (visitor : JsonVisit → Visiting τ Unit),
      numberValue visitor p = throw e := by
  unfold Taken at h
  push Not at h
  obtain ⟨hinteger, hrefused⟩ := h
  cases hassign : MojDecimal.assign n.num.text with
  | ok d => exact absurd hassign (hrefused d)
  | error e =>
    refine ⟨e, fun p below hp τ visitor => ?_⟩
    rw [numberValue, hp.isDecimal_eq, hp.str_eq, n.any_isDecimalChar, hinteger, hassign]
    rfl

/-! ### Numbers that are cut off -/

/-- What is read to its end ends with a digit. -/
theorem last_of_numberValue {p : MojJsonParser} {str : List MojByte} {below : List MojJsonStackRec}
    (hp : p.InNumber str below) {c : MojByte} (hlast : str.getLast? = some c) (hc : digit? c = none) {τ : Type}
    (visitor : JsonVisit → Visiting τ Unit) : Ensures (numberValue visitor p) fun _ => False := by
  rw [numberValue, hp.str_eq]
  split_ifs with hdecimal hrest
  · cases hassign : MojDecimal.assign str with
    | error e => exact .throw _
    | ok d =>
      obtain ⟨q, hparse, -⟩ := bind_eq_ok.mp hassign
      have hdigit := Lexer.accepts_last (Lexer.accepts_of_parse hparse) hlast
      rw [hc] at hdigit
      cases hdigit
  · exact (Ensures.top _).bind fun _ _ => .throw _
  · have hdigit := decimal_last (not_not.mp hrest) hlast
    rw [hc] at hdigit
    cases hdigit

theorem prefix_append_cases {α : Type} {l a b : List α} (h : l <+: a ++ b) :
    l <+: a ∨ ∃ c, c ≠ [] ∧ l = a ++ c ∧ c <+: b := by
  rcases List.prefix_or_prefix_of_prefix h (List.prefix_append a b) with hla | ⟨c, rfl⟩
  · exact .inl hla
  · rcases eq_or_ne c [] with rfl | hne
    · exact .inl (by simp)
    · exact .inr ⟨c, hne, rfl, (List.prefix_append_right_inj a).mp h⟩

/-- A number with the digits of `n` before the point. -/
def withTail (fraction : List Nat) (hlt : ∀ d ∈ fraction, d < 10) (exponent : Option Exponent) : JsonNumber where
  num := ⟨n.num.sign, n.num.magnitude, fraction, exponent, n.num.magnitude_lt, hlt,
    .inl (by obtain ⟨d, ds, h, -⟩ := n.magnitude_eq; simp [h])⟩
  no_plus := n.no_plus
  magnitude_eq := n.magnitude_eq

theorem exists_of_integer {m : List Nat} (h : m <+: n.num.magnitude) (hne : m ≠ []) :
    ∃ k : JsonNumber, k.num.text = signText n.num.sign ++ m.map digitChar := by
  obtain ⟨d, ms, rfl⟩ := List.exists_cons_of_ne_nil hne
  obtain ⟨e, ds, hmagnitude, hzero⟩ := n.magnitude_eq
  have hcut := h
  rw [hmagnitude, List.cons_prefix_cons] at hcut
  obtain ⟨rfl, hms⟩ := hcut
  refine ⟨⟨⟨n.num.sign, d :: ms, [], none, fun x hx => n.num.magnitude_lt x (h.subset hx), nofun,
    .inl (List.cons_ne_nil _ _)⟩, n.no_plus, d, ms, rfl, fun hd => ?_⟩, ?_⟩
  · rw [hzero hd] at hms
    exact List.prefix_nil.mp hms
  · simp [Numeral.text, Numeral.fractionText, Numeral.exponentText]

/-- **Where a number is cut behind a digit, what is left is a number.** -/
theorem exists_of_isPrefix {str : List MojByte} (h : str <+: n.num.text) {c : MojByte}
    (hlast : str.getLast? = some c) (hc : (digit? c).isSome = true) : ∃ k : JsonNumber, k.num.text = str := by
  have hsign : ∀ sign : Option Bool, c ∉ signText sign := by
    intro sign hmem
    rw [(isNumberChar_signText sign c hmem).2] at hc
    cases hc
  rcases prefix_append_cases h with hs | ⟨s₁, -, rfl, h₁⟩
  · exact absurd (hs.subset (List.mem_of_getLast? hlast)) (hsign _)
  rcases prefix_append_cases h₁ with hm | ⟨s₂, -, rfl, h₂⟩
  · obtain ⟨m, hcut, rfl⟩ := List.prefix_map_iff.mp hm
    refine n.exists_of_integer hcut ?_
    rintro rfl
    rw [List.map_nil, List.append_nil] at hlast
    exact hsign _ (List.mem_of_getLast? hlast)
  rcases prefix_append_cases h₂ with hf | ⟨s₃, hne₃, rfl, h₃⟩
  · unfold Numeral.fractionText at hf
    split_ifs at hf with hfraction
    · obtain rfl := List.prefix_nil.mp hf
      exact ⟨n.withTail [] (fun _ h => by cases h) none, by
        simp [withTail, Numeral.text, Numeral.fractionText, Numeral.exponentText]⟩
    · rcases List.prefix_cons_iff.mp hf with rfl | ⟨t, rfl, ht⟩
      · exact ⟨n.withTail [] (fun _ h => by cases h) none, by
          simp [withTail, Numeral.text, Numeral.fractionText, Numeral.exponentText]⟩
      · obtain ⟨f, hcut, rfl⟩ := List.prefix_map_iff.mp ht
        have hne : f ≠ [] := by
          rintro rfl
          simp only [List.map_nil, List.getLast?_append, List.getLast?_singleton, Option.some_or, Option.some.injEq] at hlast
          subst hlast
          exact absurd hc (by decide)
        exact ⟨n.withTail f (fun d hd => n.num.fraction_lt d (hcut.subset hd)) none, by
          simp [withTail, Numeral.text, Numeral.fractionText, Numeral.exponentText, hne]⟩
  · unfold Numeral.exponentText at h₃
    cases hx : n.num.exponent with
    | none =>
      rw [hx] at h₃
      exact absurd (List.prefix_nil.mp h₃) hne₃
    | some x =>
      rw [hx] at h₃
      rcases List.prefix_cons_iff.mp h₃ with rfl | ⟨t, rfl, ht⟩
      · exact absurd rfl hne₃
      have htail : ∀ front : List MojByte, (signText n.num.sign ++ (n.num.magnitude.map digitChar ++
          (n.num.fractionText ++ front))).getLast? = some c → front ≠ [] → front.getLast? = some c := by
        intro front hfront hne
        rwa [List.getLast?_append_of_ne_nil _ (by simp [hne]), List.getLast?_append_of_ne_nil _ (by simp [hne]),
          List.getLast?_append_of_ne_nil _ hne] at hfront
      have hlast := htail _ hlast hne₃
      rcases prefix_append_cases ht with ht | ⟨u, hneu, rfl, hu⟩
      · by_cases hnil : t = []
        · subst hnil
          have hmark : digit? (if x.capital then ch 'E' else ch 'e') = none := by split_ifs <;> decide
          rw [← Option.some.inj hlast, List.getLast_singleton, hmark] at hc
          cases hc
        · rw [List.getLast?_cons_of_ne_nil hnil] at hlast
          exact absurd (ht.subset (List.mem_of_getLast? hlast)) (hsign _)
      · obtain ⟨xs, hxs, rfl⟩ := List.prefix_map_iff.mp hu
        have hne : xs ≠ [] := by
          rintro rfl
          exact hneu rfl
        exact ⟨n.withTail n.num.fraction n.num.fraction_lt
          (some ⟨x.capital, x.sign, xs, fun d hd => x.lt_ten d (hxs.subset hd), hne⟩), by
          simp only [withTail, Numeral.text, Numeral.exponentText, Exponent.text, Option.map_some, Option.getD_some]
          rfl⟩

end JsonNumber

end Db8
