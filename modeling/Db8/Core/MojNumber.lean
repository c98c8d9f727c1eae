import Db8.Core.MojErr
import Db8.Core.MojObject
import Db8.Lib.Fallible

/-!
# Core.MojNumber

Numbers as text: `MojStrToInt64` for integers, `MojNumber::Lexer` with `MojNumber::Parser` for
decimals, and `MojDecimal::stringValue`.

* `MojStrToInt64_intText` — the text of an integer stands for that integer.
* `assign_stringValue_iff` — the text of a decimal stands for that decimal, except for the least one.
-/

namespace Db8

open Lib

/-- The byte of an ASCII character. -/
def ch (c : Char) : MojByte := Fin.ofNat 256 c.toNat

/-- The value of a decimal digit. -/
def digit? (c : MojByte) : Option Nat :=
  if 48 ≤ c.val ∧ c.val ≤ 57 then some (c.val - 48) else none

def isSpace (c : MojByte) : Bool := (9 ≤ c.val ∧ c.val ≤ 13) ∨ c.val = 32

/-! ## Integers -/

namespace MojStrToInt64

/-- The digits below `base` at the front, as a number, and what follows them. -/
def accumulate (base : Nat) : List MojByte → Nat → Nat × List MojByte
  | [], acc => (acc, [])
  | c :: cs, acc =>
    match digit? c with
    | none => (acc, c :: cs)
    | some d => if d < base then accumulate base cs (acc * base + d) else (acc, c :: cs)

/-- A value out of range is replaced by the nearest in range. -/
def clamp (i : Int) : Int64 :=
  if i < Int64.minValue.toInt then Int64.minValue
  else if Int64.maxValue.toInt < i then Int64.maxValue
  else Int64.ofInt i

end MojStrToInt64

open MojStrToInt64 in
/-- `strtoll` with base 0 on the characters the JSON parser collects (among which there is no `x`):
the value and what is left behind the number. A number that begins with `0` is octal; without
digits nothing is consumed. -/
def MojStrToInt64 (str : List MojByte) : Int64 × List MojByte :=
  let s := str.dropWhile isSpace
  let negative := s.head? = some (ch '-')
  let s := if s.head? = some (ch '-') ∨ s.head? = some (ch '+') then s.tail else s
  match s with
  | [] => (0, str)
  | c :: _ =>
    if (digit? c).isNone then (0, str)
    else
      let (n, rest) := accumulate (if c = ch '0' then 8 else 10) s 0
      (clamp (if negative then -(n : Int) else n), rest)

namespace MojStrToInt64

def hexDigit? (c : MojByte) : Option Nat :=
  if 97 ≤ c.val ∧ c.val ≤ 102 then some (c.val - 87)
  else if 65 ≤ c.val ∧ c.val ≤ 70 then some (c.val - 55)
  else digit? c

def accumulateHex : List MojByte → Nat → Nat × List MojByte
  | [], acc => (acc, [])
  | c :: cs, acc =>
    match hexDigit? c with
    | none => (acc, c :: cs)
    | some d => accumulateHex cs (acc * 16 + d)

/-- `strtoll` with base 0 on any string: behind `0x` the digits are hexadecimal. -/
def ofString (str : List MojByte) : Int64 × List MojByte :=
  let s := str.dropWhile isSpace
  let negative := s.head? = some (ch '-')
  let s := if s.head? = some (ch '-') ∨ s.head? = some (ch '+') then s.tail else s
  match s with
  | z :: x :: c :: cs =>
    if z = ch '0' ∧ (x = ch 'x' ∨ x = ch 'X') ∧ (hexDigit? c).isSome then
      let (n, rest) := accumulateHex (c :: cs) 0
      (clamp (if negative then -(n : Int) else n), rest)
    else MojStrToInt64 str
  | _ => MojStrToInt64 str

theorem isDigit_of_accumulate {base : Nat} {cs : List MojByte} {acc n : Nat}
    (h : accumulate base cs acc = (n, [])) : ∀ c ∈ cs, (digit? c).isSome := by
  induction cs generalizing acc with
  | nil => simp
  | cons c cs ih =>
    rw [accumulate] at h
    cases hc : digit? c with
    | none =>
      rw [hc] at h
      cases (Prod.mk.inj h).2
    | some d =>
      simp only [hc] at h
      split_ifs at h with hd
      · intro e he
        cases List.mem_cons.mp he with
        | inl he =>
          rw [he, hc]
          rfl
        | inr he => exact ih h e he
      · cases (Prod.mk.inj h).2

theorem isHexDigit_of_accumulate {cs : List MojByte} {acc n : Nat} (h : accumulateHex cs acc = (n, [])) :
    ∀ c ∈ cs, (hexDigit? c).isSome := by
  induction cs generalizing acc with
  | nil => simp
  | cons c cs ih =>
    rw [accumulateHex] at h
    cases hc : hexDigit? c with
    | none =>
      rw [hc] at h
      cases (Prod.mk.inj h).2
    | some d =>
      simp only [hc] at h
      intro e he
      cases List.mem_cons.mp he with
      | inl he =>
        rw [he, hc]
        rfl
      | inr he => exact ih h e he

theorem hexDigit?_of_digit? {c : MojByte} (h : (digit? c).isSome) : (hexDigit? c).isSome := by
  unfold hexDigit?
  split_ifs
  · rfl
  · rfl
  · exact h

/-- What is left of a text without the spaces and the sign in front ends as the text does. -/
theorem getLast?_unsigned {str s : List MojByte} {c : MojByte} (hlast : str.getLast? = some c)
    (hs : s = if (str.dropWhile isSpace).head? = some (ch '-') ∨ (str.dropWhile isSpace).head? = some (ch '+')
      then (str.dropWhile isSpace).tail else str.dropWhile isSpace) (hne : s ≠ []) : c ∈ s := by
  have hsuffix : s <:+ str := by
    rw [hs]
    split_ifs
    · exact (List.tail_suffix _).trans (List.dropWhile_suffix _)
    · exact List.dropWhile_suffix _
  have hmem := List.getLast_mem hne
  obtain ⟨front, rfl⟩ := hsuffix
  rw [List.getLast?_append_of_ne_nil _ hne, List.getLast?_eq_some_getLast hne] at hlast
  exact Option.some.inj hlast ▸ hmem

theorem decimal_last {str : List MojByte} (h : (MojStrToInt64 str).2 = []) {c : MojByte}
    (hlast : str.getLast? = some c) : (digit? c).isSome := by
  have hne : str ≠ [] := by
    intro he
    rw [he] at hlast
    cases hlast
  unfold MojStrToInt64 at h
  simp only at h
  generalize hs : (if (str.dropWhile isSpace).head? = some (ch '-') ∨
    (str.dropWhile isSpace).head? = some (ch '+') then (str.dropWhile isSpace).tail
    else str.dropWhile isSpace) = s at h
  cases s with
  | nil => exact absurd h hne
  | cons d ds =>
    have hmem := getLast?_unsigned hlast hs.symm (List.cons_ne_nil d ds)
    by_cases hd : (digit? d).isNone = true
    · simp only [hd, if_true] at h
      exact absurd h hne
    · simp only [hd] at h
      exact isDigit_of_accumulate (Prod.ext rfl h) c hmem

/-- A text that is a number to its end, if it is not empty, ends with a digit. -/
theorem ofString_last {str : List MojByte} (h : (ofString str).2 = []) {c : MojByte}
    (hlast : str.getLast? = some c) : (hexDigit? c).isSome := by
  unfold ofString at h
  simp only at h
  generalize hs : (if (str.dropWhile isSpace).head? = some (ch '-') ∨
    (str.dropWhile isSpace).head? = some (ch '+') then (str.dropWhile isSpace).tail
    else str.dropWhile isSpace) = s at h
  split at h
  · rename_i z x d ds
    by_cases hhex : z = ch '0' ∧ (x = ch 'x' ∨ x = ch 'X') ∧ (hexDigit? d).isSome
    · rw [if_pos hhex] at h
      have hsuffix : z :: x :: d :: ds <:+ str := by
        rw [← hs]
        split_ifs
        · exact (List.tail_suffix _).trans (List.dropWhile_suffix _)
        · exact List.dropWhile_suffix _
      obtain ⟨front, rfl⟩ := hsuffix
      rw [List.getLast?_append_of_ne_nil _ (List.cons_ne_nil z _), List.getLast?_cons_cons,
        List.getLast?_cons_cons] at hlast
      exact isHexDigit_of_accumulate (Prod.ext rfl h) c (List.mem_of_getLast? hlast)
    · rw [if_neg hhex] at h
      exact hexDigit?_of_digit? (decimal_last h hlast)
  · exact hexDigit?_of_digit? (decimal_last h hlast)

end MojStrToInt64

namespace MojObject

/-- `MojObject::intValue`; of a decimal the part before the point. -/
def intValue : MojObject → Int64
  | .undefined => 0
  | .null => 0
  | .object _ => 0
  | .array _ => 0
  | .string s => (MojStrToInt64.ofString s.chars).1
  | .bool b => if b then 1 else 0
  | .decimal d => Int64.ofInt (d.rep.toInt.tdiv 1000000)
  | .int i => i

/-- `MojObject::get` into a `MojUInt32`. -/
def getUInt32 (o : MojObject) (key : MojString) : Except MojErr (Option Nat) :=
  match o.get key with
  | none => .ok none
  | some val =>
    if 0 ≤ val.intValue.toInt ∧ val.intValue.toInt ≤ 4294967295 then .ok (some val.intValue.toInt.toNat)
    else .error .valueOutOfRange

end MojObject

/-! ## Decimals -/

namespace MojNumber

/-- `value` is a `uint64_t`. -/
structure Parser where
  positive : Bool
  value : Nat
  valueExp : Int
  exponentPositive : Bool
  exponent : Int

namespace Parser

def reset : Parser := ⟨true, 0, 0, true, 0⟩

def INT_MAX : Int := 2147483647
def MojUInt64Max : Nat := 18446744073709551615
def MojInt64Max : Nat := 9223372036854775807
def base : Nat := 10
def bound : Nat := (MojUInt64Max - (base - 1)) / base
def exponentBound : Int := (INT_MAX - (base - 1)) / base
def int64_pow_max : Int := 18

def npow (x : Nat) (exp : Nat) : Nat := x ^ exp % 2 ^ 64

def negative (p : Parser) : Except MojErr Parser := .ok { p with positive := false }

/-- Zeros behind the value are postponed in `valueExp`; here they are multiplied out. -/
def realignValue (p : Parser) : Parser :=
  if p.valueExp > 0 then
    { p with value := p.value * npow base p.valueExp.toNat % 2 ^ 64, valueExp := 0 }
  else p

def pushDigit (p : Parser) (x : Nat) : Except MojErr Parser :=
  if p.value > bound then .error .valueOutOfRange
  else .ok { p with value := p.value * base + x }

def digit (p : Parser) (x : Nat) : Except MojErr Parser :=
  if p.value ≠ 0 ∧ x = 0 then
    if p.valueExp = INT_MAX then .error .valueOutOfRange
    else .ok { p with valueExp := p.valueExp + 1 }
  else p.realignValue.pushDigit x

def fractionDigit (p : Parser) (x : Nat) : Except MojErr Parser :=
  pushDigit { p.realignValue with valueExp := p.realignValue.valueExp - 1 } x

def negativeExponent (p : Parser) : Except MojErr Parser := .ok { p with exponentPositive := false }

def exponentDigit (p : Parser) (x : Nat) : Except MojErr Parser :=
  if p.exponent = 0 ∧ x = 0 then .ok p
  else if p.exponent ≥ exponentBound then .error .valueOutOfRange
  else .ok { p with exponent := p.exponent * 10 + x }

def finish (p : Parser) : Parser :=
  if p.exponentPositive then p else { p with exponent := -p.exponent }

def Precision : Int := 6

def toDecimal (p : Parser) : Except MojErr MojDecimal :=
  let alignExp := Precision + p.valueExp + p.exponent
  if alignExp < 0 then
    if -alignExp > int64_pow_max then .ok ⟨0⟩
    else
      -- all but the last of the digits that are too many are dropped, the last is rounded
      let rep := if alignExp < -1 then p.value / npow base (-alignExp - 1).toNat else p.value
      let rep := if (rep % base) * 2 > base then rep / base + 1 else rep / base
      .ok ⟨if p.positive then Int64.ofNat rep else -Int64.ofNat rep⟩
  else if alignExp > int64_pow_max then .error .valueOutOfRange
  else
    let factor := npow base alignExp.toNat
    if p.value > MojInt64Max / factor then .error .valueOutOfRange
    else .ok ⟨if p.positive then Int64.ofNat (p.value * factor) else -Int64.ofNat (p.value * factor)⟩

end Parser

namespace Lexer

inductive State where
  | stateNumber
  | stateMagnitude
  | stateMagnitudeDigits
  | stateFraction
  | stateFractionDigits
  | stateExponent
  | stateExponentFirstDigit
  | stateExponentDigits
  deriving DecidableEq

def magnitudeChar (p : Parser) (c : MojByte) : Except MojErr (State × Parser) :=
  match digit? c with
  | some x => do return (.stateMagnitudeDigits, ← p.digit x)
  | none =>
    if c = ch '.' then .ok (.stateFraction, p)
    else if c = ch 'e' ∨ c = ch 'E' then .ok (.stateExponent, p)
    else .error .invalidDecimal

def exponentChar (p : Parser) (c : MojByte) : Except MojErr (State × Parser) :=
  match digit? c with
  | some x => do return (.stateExponentDigits, ← p.exponentDigit x)
  | none => .error .invalidDecimal

/-- One character; the cases of the source that fall through are calls of the case they reach. -/
def step (s : State × Parser) (c : MojByte) : Except MojErr (State × Parser) :=
  let p := s.2
  match s.1 with
  | .stateNumber =>
    if c = ch '-' then do return (.stateMagnitude, ← p.negative)
    else if c = ch '+' then .ok (.stateMagnitude, p)
    else if (digit? c).isNone then .error .invalidDecimal
    else magnitudeChar p c
  | .stateMagnitude => magnitudeChar p c
  | .stateMagnitudeDigits => magnitudeChar p c
  | .stateFraction =>
    match digit? c with
    | some x => do return (.stateFractionDigits, ← p.fractionDigit x)
    | none => .error .invalidDecimal
  | .stateFractionDigits =>
    match digit? c with
    | some x => do return (.stateFractionDigits, ← p.fractionDigit x)
    | none => if c = ch 'e' ∨ c = ch 'E' then .ok (.stateExponent, p) else .error .invalidDecimal
  | .stateExponent =>
    if c = ch '-' then do return (.stateExponentFirstDigit, ← p.negativeExponent)
    else if c = ch '+' then .ok (.stateExponentFirstDigit, p)
    else exponentChar p c
  | .stateExponentFirstDigit => exponentChar p c
  | .stateExponentDigits => exponentChar p c

def parse (number : List MojByte) : Except MojErr Parser := do
  let (state, p) ← number.foldlM step (.stateNumber, Parser.reset)
  if state = .stateMagnitudeDigits ∨ state = .stateFractionDigits ∨ state = .stateExponentDigits then
    return p.finish
  else .error .invalidDecimal

end Lexer

end MojNumber

namespace MojDecimal

/-- `MojDecimal::assign(const MojString&)`. -/
def assign (str : List MojByte) : Except MojErr MojDecimal := do
  let p ← MojNumber.Lexer.parse str
  p.toDecimal

def Precision : Nat := 6
def MaxStringSize : Nat := 24

/-- `MojAbs`: the least number has no positive counterpart and stays as it is. -/
def mojAbs (rep : Int64) : Int64 := if rep < 0 then -rep else rep

/-- The digits of `rep`, lowest first, in a buffer of the given size. C's division rounds to zero,
so a negative `rep` gives characters below `'0'`. -/
def repDigits : Nat → Int → List MojByte
  | 0, _ => []
  | size + 1, rep =>
    if rep = 0 then [] else Fin.ofNat 256 (48 + rep.tmod 10).toNat :: repDigits size (rep.tdiv 10)

def stringValue (d : MojDecimal) : List MojByte :=
  let digits := repDigits MaxStringSize (mojAbs d.rep).toInt
  let tmp := digits ++ List.replicate (Precision + 1 - digits.length) (ch '0')
  let firstDigit := min (tmp.takeWhile (· = ch '0')).length (Precision - 1)
  (if d.rep < 0 then [ch '-'] else []) ++
    ((tmp.drop Precision).reverse ++ ch '.' :: ((tmp.take Precision).drop firstDigit).reverse)

end MojDecimal

/-- `%lld`. -/
def intText (i : Int64) : List MojByte :=
  (if i < 0 then [ch '-'] else []) ++
    (if i.toInt.natAbs = 0 then [ch '0']
      else ((Nat.digits 10 i.toInt.natAbs).map fun d => Fin.ofNat 256 (48 + d)).reverse)

/-! ## Numerals -/

/-- The character of a digit. -/
def digitChar (d : Nat) : MojByte := Fin.ofNat 256 (48 + d)

theorem digitChar_val {d : Nat} (h : d < 10) : (digitChar d).val = 48 + d := by
  simp only [digitChar, Fin.val_ofNat]
  omega

theorem digit?_digitChar {d : Nat} (h : d < 10) : digit? (digitChar d) = some d := by
  rw [digit?, digitChar_val h, if_pos ⟨by omega, by omega⟩]
  congr 1
  omega

theorem digitChar_ne {d : Nat} (h : d < 10) {c : MojByte} (hc : digit? c = none) : digitChar d ≠ c := by
  rintro rfl
  rw [digit?_digitChar h] at hc
  cases hc

/-- The number with the digits `ds`, highest first, behind those of `acc`. -/
def numeral (acc : Nat) (ds : List Nat) : Nat := ds.foldl (fun n d => n * 10 + d) acc

theorem numeral_append (acc : Nat) (ds es : List Nat) :
    numeral acc (ds ++ es) = numeral (numeral acc ds) es := List.foldl_append

theorem numeral_reverse (ds : List Nat) : numeral 0 ds.reverse = Nat.ofDigits 10 ds := by
  rw [numeral, List.foldl_reverse, Nat.ofDigits_eq_foldr]
  congr 1
  funext d n
  simp only [Nat.cast_id]
  ring

theorem le_numeral (acc : Nat) (ds : List Nat) : acc ≤ numeral acc ds := by
  induction ds generalizing acc with
  | nil => exact le_refl _
  | cons d ds ih =>
    have := ih (acc * 10 + d)
    change acc ≤ numeral (acc * 10 + d) ds
    omega

theorem digits_lt (n : Nat) : ∀ d ∈ Nat.digits 10 n, d < 10 := fun _ hd =>
  Nat.digits_lt_base (by decide) hd

/-! ## Integers as text -/

namespace MojStrToInt64

theorem accumulate_digits {ds : List Nat} (hds : ∀ d ∈ ds, d < 10) (acc : Nat) :
    accumulate 10 (ds.map digitChar) acc = (numeral acc ds, []) := by
  induction ds generalizing acc with
  | nil => rfl
  | cons d ds ih =>
    have hd := hds d List.mem_cons_self
    rw [List.map_cons, accumulate, digit?_digitChar hd]
    simp only [if_pos hd]
    rw [ih fun e he => hds e (List.mem_cons_of_mem _ he)]
    rfl

theorem clamp_toInt (i : Int64) : clamp i.toInt = i := by
  have hlo := i.minValue_le_toInt
  have hhi := i.toInt_le
  rw [clamp, if_neg (by omega), if_neg (by omega), Int64.ofInt_toInt]

end MojStrToInt64

open MojStrToInt64

/-- The digits of a number as `printf` writes them. -/
def natDigits (n : Nat) : List Nat := if n = 0 then [0] else (Nat.digits 10 n).reverse

theorem natDigits_lt (n : Nat) : ∀ d ∈ natDigits n, d < 10 := by
  intro d hd
  rw [natDigits] at hd
  split_ifs at hd
  · rw [List.mem_singleton.mp hd]
    decide
  · exact digits_lt n d (List.mem_reverse.mp hd)

theorem numeral_natDigits (n : Nat) : numeral 0 (natDigits n) = n := by
  rw [natDigits]
  split_ifs with h
  · rw [h]
    rfl
  · rw [numeral_reverse, Nat.ofDigits_digits]

theorem natDigits_cons (n : Nat) : ∃ d ds, natDigits n = d :: ds ∧ (d = 0 → n = 0 ∧ ds = []) := by
  rw [natDigits]
  split_ifs with h
  · exact ⟨0, [], rfl, fun _ => ⟨h, rfl⟩⟩
  · have hne := Nat.digits_ne_nil_iff_ne_zero (b := 10).mpr h
    have hlast := Nat.getLast_digit_ne_zero 10 h
    refine ⟨(Nat.digits 10 n).getLast hne, (Nat.digits 10 n).dropLast.reverse, ?_, ?_⟩
    · conv_lhs => rw [← List.dropLast_append_getLast hne]
      rw [List.reverse_append]
      rfl
    · intro hzero
      exact absurd hzero hlast

theorem intText_eq (i : Int64) :
    intText i = (if i < 0 then [ch '-'] else []) ++ (natDigits i.toInt.natAbs).map digitChar := by
  rw [intText, natDigits]
  congr 1
  split_ifs
  · rfl
  · rw [List.map_reverse]
    rfl

theorem dropWhile_isSpace {c : MojByte} {cs : List MojByte} (h : isSpace c = false) :
    (c :: cs).dropWhile isSpace = c :: cs := by
  rw [List.dropWhile_cons_of_neg]
  rw [h]
  exact Bool.false_ne_true

theorem isSpace_digitChar {d : Nat} (h : d < 10) : isSpace (digitChar d) = false := by
  have hval := digitChar_val h
  simp only [isSpace, hval, decide_eq_false_iff_not]
  omega

/-- The number behind the sign: the first digit is no zero, unless it is the only one. -/
theorem accumulate_natDigits {n d : Nat} {ds : List Nat} (hn : natDigits n = d :: ds)
    (hzero : d = 0 → n = 0 ∧ ds = []) :
    accumulate (if digitChar d = ch '0' then 8 else 10) ((d :: ds).map digitChar) 0 = (n, []) := by
  have hlt := natDigits_lt n
  rw [hn] at hlt
  have hd := hlt d List.mem_cons_self
  by_cases h : d = 0
  · obtain ⟨rfl, rfl⟩ := hzero h
    subst h
    rfl
  · have hne : digitChar d ≠ ch '0' := by
      intro he
      have hval := digitChar_val hd
      rw [he] at hval
      change 48 = 48 + d at hval
      omega
    rw [if_neg hne, accumulate_digits hlt, ← hn, numeral_natDigits]

theorem MojStrToInt64_intText (i : Int64) : MojStrToInt64 (intText i) = (i, []) := by
  obtain ⟨d, ds, hn, hzero⟩ := natDigits_cons i.toInt.natAbs
  have hd : d < 10 := natDigits_lt i.toInt.natAbs d (by rw [hn]; exact List.mem_cons_self)
  have hacc := accumulate_natDigits hn hzero
  have hminus : digitChar d ≠ ch '-' := digitChar_ne hd (by decide)
  have hplus : digitChar d ≠ ch '+' := digitChar_ne hd (by decide)
  have hneg : i < 0 ↔ i.toInt < 0 := by rw [Int64.lt_iff_toInt_lt, Int64.toInt_zero]
  rw [intText_eq, hn]
  by_cases hi : i < 0
  · rw [if_pos hi, List.singleton_append, MojStrToInt64, dropWhile_isSpace (by decide)]
    simp only [List.head?_cons, List.tail_cons, true_or, if_true, List.map_cons,
      digit?_digitChar hd, Option.isNone_some, Bool.false_eq_true, if_false]
    rw [← List.map_cons, hacc]
    have hval : -(i.toInt.natAbs : Int) = i.toInt := by
      have := hneg.mp hi
      omega
    change (clamp (-(i.toInt.natAbs : Int)), []) = (i, [])
    rw [hval, clamp_toInt]
  · rw [if_neg hi, List.nil_append, List.map_cons, MojStrToInt64,
      dropWhile_isSpace (isSpace_digitChar hd)]
    simp only [List.head?_cons, Option.some.injEq, hminus, hplus, or_self, if_false,
      digit?_digitChar hd, Option.isNone_some, Bool.false_eq_true]
    rw [← List.map_cons, hacc]
    have hval : (i.toInt.natAbs : Int) = i.toInt := by
      have : ¬ i.toInt < 0 := fun h => hi (hneg.mpr h)
      omega
    change (clamp (i.toInt.natAbs : Int), []) = (i, [])
    rw [hval, clamp_toInt]

/-! ## Decimals as text -/

namespace MojNumber.Parser

/-- The parser has read the digits of `n`, and has postponed `valueExp` zeros at their end. -/
structure ReadMagnitude (p : Parser) (positive : Bool) (n : Nat) : Prop where
  positive_eq : p.positive = positive
  exponent_eq : p.exponent = 0
  exponentPositive_eq : p.exponentPositive = true
  valueExp_ge : 0 ≤ p.valueExp
  value_eq : p.value * 10 ^ p.valueExp.toNat = n
  zero : p.value = 0 → p.valueExp = 0

/-- The parser has read the digits of `n`, the last `k` of them behind the point. -/
structure ReadFraction (p : Parser) (positive : Bool) (n k : Nat) : Prop where
  positive_eq : p.positive = positive
  exponent_eq : p.exponent = 0
  exponentPositive_eq : p.exponentPositive = true
  value_eq : p.value = n
  valueExp_eq : p.valueExp = -(k : Int)

theorem MojInt64Max_eq : MojInt64Max = 9223372036854775807 := rfl

theorem le_bound {n d : Nat} (h : n * 10 + d ≤ MojInt64Max) : ¬ n > bound := by
  have hbound : bound = 1844674407370955160 := by decide
  rw [MojInt64Max_eq] at h
  omega

/-- The zeros that are postponed are few, for the number is in range. -/
theorem exp_lt_of_le {v e : Nat} (hv : v ≠ 0) (h : v * 10 ^ e ≤ MojInt64Max) : e < 64 := by
  by_contra hge
  have hpow : 2 ^ 64 ≤ 10 ^ e := by
    calc 2 ^ 64 ≤ 10 ^ 64 := by decide
      _ ≤ 10 ^ e := Nat.pow_le_pow_right (by decide) (not_lt.mp hge)
  have hone : 10 ^ e ≤ v * 10 ^ e := Nat.le_mul_of_pos_left _ (Nat.pos_of_ne_zero hv)
  rw [MojInt64Max_eq] at h
  omega

theorem realignValue_read {p : Parser} {s : Bool} {n : Nat} (h : p.ReadMagnitude s n)
    (hn : n ≤ MojInt64Max) : p.realignValue.ReadFraction s n 0 := by
  have hvalue := h.value_eq
  have hge := h.valueExp_ge
  unfold realignValue
  split_ifs with hpos
  · have hne : p.value ≠ 0 := by
      intro hzero
      have := h.zero hzero
      omega
    rw [MojInt64Max_eq] at hn
    have hpow : 10 ^ p.valueExp.toNat < 2 ^ 64 := by
      have hle : 10 ^ p.valueExp.toNat ≤ p.value * 10 ^ p.valueExp.toNat :=
        Nat.le_mul_of_pos_left _ (Nat.pos_of_ne_zero hne)
      omega
    refine ⟨h.positive_eq, h.exponent_eq, h.exponentPositive_eq, ?_, rfl⟩
    change p.value * (10 ^ p.valueExp.toNat % 2 ^ 64) % 2 ^ 64 = n
    rw [Nat.mod_eq_of_lt hpow, hvalue, Nat.mod_eq_of_lt (by omega)]
  · have hzero : p.valueExp = 0 := by omega
    rw [hzero] at hvalue
    exact ⟨h.positive_eq, h.exponent_eq, h.exponentPositive_eq, by simpa using hvalue, hzero⟩

theorem pushDigit_read {p : Parser} {s : Bool} {n k d : Nat} (h : p.ReadFraction s n k)
    (hn : n * 10 + d ≤ MojInt64Max) :
    p.pushDigit d = .ok { p with value := n * 10 + d } := by
  rw [pushDigit, h.value_eq, if_neg (le_bound hn)]
  rfl

theorem digit_read {p : Parser} {s : Bool} {n d : Nat} (h : p.ReadMagnitude s n)
    (hn : n * 10 + d ≤ MojInt64Max) :
    ∃ p', p.digit d = .ok p' ∧ p'.ReadMagnitude s (n * 10 + d) := by
  unfold digit
  split_ifs with hzero hmax
  · have := exp_lt_of_le hzero.1 (h.value_eq.le.trans (by omega))
    simp only [hmax, INT_MAX] at this
    omega
  · obtain ⟨hne, rfl⟩ := hzero
    refine ⟨_, rfl, h.positive_eq, h.exponent_eq, h.exponentPositive_eq, ?_, ?_, ?_⟩
    · change 0 ≤ p.valueExp + 1
      have := h.valueExp_ge
      omega
    · change p.value * 10 ^ (p.valueExp + 1).toNat = _
      rw [Int.toNat_add h.valueExp_ge (by decide), Int.toNat_one, pow_succ, ← mul_assoc, h.value_eq,
        add_zero]
    · intro hv
      exact absurd hv hne
  · have hreal := realignValue_read h (by omega)
    refine ⟨_, pushDigit_read hreal hn, hreal.positive_eq, hreal.exponent_eq,
      hreal.exponentPositive_eq, ?_, ?_, fun _ => hreal.valueExp_eq⟩
    · exact hreal.valueExp_eq.ge
    · change (n * 10 + d) * 10 ^ p.realignValue.valueExp.toNat = _
      rw [hreal.valueExp_eq]
      simp

theorem fractionDigit_read {p : Parser} {s : Bool} {n k d : Nat}
    (h : p.realignValue.ReadFraction s n k) (hn : n * 10 + d ≤ MojInt64Max) :
    ∃ p', p.fractionDigit d = .ok p' ∧ p'.realignValue = p' ∧ p'.ReadFraction s (n * 10 + d) (k + 1) := by
  have hpush : ReadFraction { p.realignValue with valueExp := p.realignValue.valueExp - 1 } s n (k + 1) := by
    refine ⟨h.positive_eq, h.exponent_eq, h.exponentPositive_eq, h.value_eq, ?_⟩
    change p.realignValue.valueExp - 1 = _
    rw [h.valueExp_eq]
    push_cast
    ring
  refine ⟨_, pushDigit_read hpush hn, ?_, ⟨h.positive_eq, h.exponent_eq, h.exponentPositive_eq, rfl,
    hpush.valueExp_eq⟩⟩
  rw [realignValue, if_neg]
  change ¬ p.realignValue.valueExp - 1 > 0
  rw [h.valueExp_eq]
  omega

/-- What has been read is that many millionths when the digits behind the point are made up to six. -/
theorem toDecimal_read {p : Parser} {s : Bool} {n k : Nat} (h : p.ReadFraction s n k) (hk : k ≤ 6)
    (hn : n * 10 ^ (6 - k) ≤ MojInt64Max) :
    p.toDecimal = .ok ⟨if s then Int64.ofNat (n * 10 ^ (6 - k)) else -Int64.ofNat (n * 10 ^ (6 - k))⟩ := by
  have halign : Precision + p.valueExp + p.exponent = ((6 - k : Nat) : Int) := by
    rw [h.valueExp_eq, h.exponent_eq, Precision]
    omega
  have hpow : 10 ^ (6 - k) ≤ 10 ^ 6 := Nat.pow_le_pow_right (by decide) (Nat.sub_le 6 k)
  have hfactor : npow base (6 - k) = 10 ^ (6 - k) := Nat.mod_eq_of_lt (by simp only [base]; omega)
  have hle : ¬ n > MojInt64Max / 10 ^ (6 - k) := by
    rw [not_lt, Nat.le_div_iff_mul_le (Nat.pow_pos (by decide))]
    exact hn
  simp only [toDecimal, halign, Int.toNat_natCast, hfactor, h.value_eq, h.positive_eq]
  rw [if_neg (by omega), if_neg (by simp only [int64_pow_max]; omega), if_neg hle]

end MojNumber.Parser

namespace MojNumber.Lexer

open Db8.MojNumber.Parser

theorem step_digit {state : State} {p : Parser} {d : Nat} (hd : d < 10)
    (hstate : state = .stateNumber ∨ state = .stateMagnitude ∨ state = .stateMagnitudeDigits) :
    step (state, p) (digitChar d) = (do return (.stateMagnitudeDigits, ← p.digit d)) := by
  have hchar : magnitudeChar p (digitChar d) = (do return (.stateMagnitudeDigits, ← p.digit d)) := by
    simp only [magnitudeChar, digit?_digitChar hd]
  rcases hstate with rfl | rfl | rfl
  · have hminus : digitChar d ≠ ch '-' := digitChar_ne hd (by decide)
    have hplus : digitChar d ≠ ch '+' := digitChar_ne hd (by decide)
    simp only [step, hminus, hplus, if_false, digit?_digitChar hd, Option.isNone_some,
      Bool.false_eq_true, hchar]
  · exact hchar
  · exact hchar

theorem step_fractionDigit {state : State} {p : Parser} {d : Nat} (hd : d < 10)
    (hstate : state = .stateFraction ∨ state = .stateFractionDigits) :
    step (state, p) (digitChar d) = (do return (.stateFractionDigits, ← p.fractionDigit d)) := by
  rcases hstate with rfl | rfl
  · simp only [step, digit?_digitChar hd]
  · simp only [step, digit?_digitChar hd]

theorem foldlM_magnitude {ds : List Nat} (hds : ∀ d ∈ ds, d < 10) (hne : ds ≠ []) {s : Bool} {n : Nat}
    (hn : numeral n ds ≤ MojInt64Max) {p : Parser} (h : p.ReadMagnitude s n) {state : State}
    (hstate : state = .stateNumber ∨ state = .stateMagnitude ∨ state = .stateMagnitudeDigits) :
    ∃ p', (ds.map digitChar).foldlM step (state, p) = .ok (.stateMagnitudeDigits, p') ∧
      p'.ReadMagnitude s (numeral n ds) := by
  induction ds generalizing n p state with
  | nil => exact absurd rfl hne
  | cons d ds ih =>
    have hn' : numeral (n * 10 + d) ds ≤ MojInt64Max := hn
    obtain ⟨p', hp', hread⟩ := digit_read h ((le_numeral _ ds).trans hn')
    rw [List.map_cons, List.foldlM_cons, step_digit (hds d List.mem_cons_self) hstate, hp']
    cases ds with
    | nil => exact ⟨p', rfl, hread⟩
    | cons e ds =>
      exact ih (fun x hx => hds x (List.mem_cons_of_mem _ hx)) (List.cons_ne_nil _ _) hn' hread
        (.inr (.inr rfl))

theorem foldlM_fraction {ds : List Nat} (hds : ∀ d ∈ ds, d < 10) (hne : ds ≠ []) {s : Bool} {n k : Nat}
    (hn : numeral n ds ≤ MojInt64Max) {p : Parser} (h : p.realignValue.ReadFraction s n k)
    {state : State} (hstate : state = .stateFraction ∨ state = .stateFractionDigits) :
    ∃ p', (ds.map digitChar).foldlM step (state, p) = .ok (.stateFractionDigits, p') ∧
      p'.ReadFraction s (numeral n ds) (k + ds.length) := by
  induction ds generalizing n p k state with
  | nil => exact absurd rfl hne
  | cons d ds ih =>
    have hn' : numeral (n * 10 + d) ds ≤ MojInt64Max := hn
    obtain ⟨p', hp', hreal, hread⟩ := fractionDigit_read h ((le_numeral _ ds).trans hn')
    rw [List.map_cons, List.foldlM_cons, step_fractionDigit (hds d List.mem_cons_self) hstate, hp']
    cases ds with
    | nil => exact ⟨p', rfl, hread⟩
    | cons e ds =>
      have hlen : k + (d :: e :: ds).length = k + 1 + (e :: ds).length := by
        simp only [List.length_cons]
        omega
      rw [hlen]
      exact ih (fun x hx => hds x (List.mem_cons_of_mem _ hx)) (List.cons_ne_nil _ _) hn'
        (by rw [hreal]; exact hread) (.inr rfl)

/-- A sign, digits, the point and digits are read as such. -/
theorem parse_read {ds es : List Nat} (hds : ∀ d ∈ ds, d < 10) (hes : ∀ d ∈ es, d < 10) (hd : ds ≠ [])
    (he : es ≠ []) (hn : numeral 0 (ds ++ es) ≤ MojInt64Max) (s : Bool) :
    ∃ p, parse ((if s then [] else [ch '-']) ++ (ds.map digitChar ++ ch '.' :: es.map digitChar)) = .ok p ∧
      p.ReadFraction s (numeral 0 (ds ++ es)) es.length := by
  rw [numeral_append] at hn ⊢
  have hmag : ∀ (p : Parser) (state : State), p.ReadMagnitude s 0 →
      (state = .stateNumber ∨ state = .stateMagnitude ∨ state = .stateMagnitudeDigits) →
      ∃ p', (ds.map digitChar ++ ch '.' :: es.map digitChar).foldlM step (state, p) =
        .ok (.stateFractionDigits, p') ∧
        p'.ReadFraction s (numeral (numeral 0 ds) es) es.length := by
    intro p state hread hstate
    have hle : numeral 0 ds ≤ MojInt64Max := (le_numeral _ es).trans hn
    obtain ⟨p₁, hp₁, hread₁⟩ := foldlM_magnitude hds hd hle hread hstate
    obtain ⟨p₂, hp₂, hread₂⟩ := foldlM_fraction hes he hn (realignValue_read hread₁ hle) (.inl rfl)
    rw [zero_add] at hread₂
    refine ⟨p₂, ?_, hread₂⟩
    rw [List.foldlM_append, hp₁, ok_bind, List.foldlM_cons]
    exact hp₂
  have hfinish : ∀ {p : Parser}, p.ReadFraction s (numeral (numeral 0 ds) es) es.length → p.finish = p := by
    intro p h
    rw [finish, if_pos h.exponentPositive_eq]
  cases s with
  | true =>
    obtain ⟨p, hp, hread⟩ := hmag Parser.reset .stateNumber ⟨rfl, rfl, rfl, le_refl _, rfl, fun _ => rfl⟩
      (.inl rfl)
    refine ⟨p, ?_, hread⟩
    rw [parse, if_pos rfl, List.nil_append, hp, ok_bind]
    change Except.ok p.finish = _
    rw [hfinish hread]
  | false =>
    obtain ⟨p, hp, hread⟩ := hmag { Parser.reset with positive := false } .stateMagnitude
      ⟨rfl, rfl, rfl, le_refl _, rfl, fun _ => rfl⟩ (.inr (.inl rfl))
    refine ⟨p, ?_, hread⟩
    have hminus : step (.stateNumber, Parser.reset) (ch '-') =
        .ok (.stateMagnitude, { Parser.reset with positive := false }) := rfl
    rw [parse, if_neg Bool.false_ne_true, List.singleton_append, List.foldlM_cons, hminus, ok_bind, hp,
      ok_bind]
    change Except.ok p.finish = _
    rw [hfinish hread]

end MojNumber.Lexer

namespace MojDecimal

open MojNumber.Parser

/-- The least decimal; it has no counterpart of the other sign. -/
def least : MojDecimal := ⟨Int64.minValue⟩

theorem mojAbs_toInt {rep : Int64} (h : rep ≠ Int64.minValue) :
    (mojAbs rep).toInt = rep.toInt.natAbs := by
  have hneg : rep < 0 ↔ rep.toInt < 0 := by rw [Int64.lt_iff_toInt_lt, Int64.toInt_zero]
  have hmin : Int64.minValue.toInt = -9223372036854775808 := rfl
  have hne : rep.toInt ≠ -9223372036854775808 := fun he => h (Int64.toInt_inj.mp (he.trans hmin.symm))
  have hlo := rep.minValue_le_toInt
  have hhi := rep.toInt_le
  have hmax : Int64.maxValue.toInt = 9223372036854775807 := rfl
  rw [mojAbs]
  split_ifs with hrep
  · rw [Int64.toInt_neg, Int.bmod_eq_of_le (by omega) (by omega)]
    have := hneg.mp hrep
    omega
  · have : ¬ rep.toInt < 0 := fun hlt => hrep (hneg.mpr hlt)
    omega

theorem repDigits_eq (size n : Nat) (h : n < 10 ^ size) :
    repDigits size n = (Nat.digits 10 n).map digitChar := by
  induction size generalizing n with
  | zero =>
    have hzero : n = 0 := by simpa using h
    subst hzero
    simp [repDigits]
  | succ size ih =>
    rw [repDigits]
    split_ifs with hzero
    · have hzero' : n = 0 := by exact_mod_cast hzero
      subst hzero'
      simp
    · have hpos : 0 < n := Nat.pos_of_ne_zero fun h0 => hzero (by exact_mod_cast h0)
      have hdiv : n / 10 < 10 ^ size := by
        rw [Nat.div_lt_iff_lt_mul (by decide)]
        rwa [pow_succ] at h
      have hmod : (48 + (n : Int).tmod 10).toNat = 48 + n % 10 := by
        rw [Int.tmod_eq_emod_of_nonneg (by omega)]
        omega
      have hquot : (n : Int).tdiv 10 = ((n / 10 : Nat) : Int) := by
        rw [Int.tdiv_eq_ediv_of_nonneg (by omega)]
        omega
      rw [Nat.digits_def' (by decide) hpos, List.map_cons, hmod, hquot, ih _ hdiv]
      rfl

/-- The digits of a number of millionths, lowest first, made up to seven. -/
def padded (n : Nat) : List Nat :=
  Nat.digits 10 n ++ List.replicate (7 - (Nat.digits 10 n).length) 0

/-- How many of the lowest digits are left out. -/
def trimmed (n : Nat) : Nat := min ((padded n).takeWhile (· = 0)).length 5

def magnitudeDigits (n : Nat) : List Nat := ((padded n).drop 6).reverse
def fractionDigits (n : Nat) : List Nat := (((padded n).take 6).drop (trimmed n)).reverse

theorem padded_lt (n : Nat) : ∀ x ∈ padded n, x < 10 := by
  intro x hx
  rcases List.mem_append.mp hx with hx | hx
  · exact digits_lt n x hx
  · rw [List.eq_of_mem_replicate hx]
    decide

theorem padded_length (n : Nat) : 7 ≤ (padded n).length := by
  simp only [padded, List.length_append, List.length_replicate]
  omega

theorem trimmed_le (n : Nat) : trimmed n ≤ 5 := min_le_right _ _

theorem ofDigits_padded (n : Nat) : Nat.ofDigits 10 (padded n) = n := by
  rw [padded, Nat.ofDigits_append, Nat.ofDigits_replicate_zero, Nat.ofDigits_digits, mul_zero, add_zero]

theorem ofDigits_take_trimmed (n : Nat) : Nat.ofDigits 10 ((padded n).take (trimmed n)) = 0 := by
  have hzeros : (padded n).take (trimmed n) = ((padded n).takeWhile (· = 0)).take (trimmed n) := by
    conv_lhs => rw [← List.takeWhile_append_dropWhile (p := (· = 0)) (l := padded n)]
    rw [List.take_append_of_le_length (show trimmed n ≤ _ from min_le_left _ _)]
  have hall : ∀ x ∈ (padded n).take (trimmed n), x = 0 := by
    intro x hx
    rw [hzeros] at hx
    simpa using List.mem_takeWhile_imp (List.mem_of_mem_take hx)
  rw [List.eq_replicate_of_mem hall, Nat.ofDigits_replicate_zero]

theorem magnitudeDigits_lt (n : Nat) : ∀ x ∈ magnitudeDigits n, x < 10 := by
  intro x hx
  exact padded_lt n x (List.mem_of_mem_drop (List.mem_reverse.mp hx))

theorem fractionDigits_lt (n : Nat) : ∀ x ∈ fractionDigits n, x < 10 := by
  intro x hx
  exact padded_lt n x (List.mem_of_mem_take (List.mem_of_mem_drop (List.mem_reverse.mp hx)))

theorem magnitudeDigits_ne_nil (n : Nat) : magnitudeDigits n ≠ [] := by
  have hlen := padded_length n
  rw [← List.length_pos_iff, magnitudeDigits, List.length_reverse, List.length_drop]
  omega

theorem fractionDigits_length (n : Nat) : (fractionDigits n).length = 6 - trimmed n := by
  have hlen := padded_length n
  rw [fractionDigits, List.length_reverse, List.length_drop, List.length_take]
  omega

theorem fractionDigits_ne_nil (n : Nat) : fractionDigits n ≠ [] := by
  have hlen := fractionDigits_length n
  have hle := trimmed_le n
  rw [← List.length_pos_iff]
  omega

theorem numeral_trimmed (n : Nat) :
    numeral 0 (magnitudeDigits n ++ fractionDigits n) * 10 ^ (6 - (fractionDigits n).length) = n := by
  have hle := trimmed_le n
  have hlen := padded_length n
  have hexp : 6 - (fractionDigits n).length = trimmed n := by
    rw [fractionDigits_length]
    omega
  have hdrop : ((padded n).take 6).drop (trimmed n) ++ (padded n).drop 6 = (padded n).drop (trimmed n) := by
    rw [← List.drop_append_of_le_length (by rw [List.length_take]; omega), List.take_append_drop]
  have hsplit := congrArg (Nat.ofDigits 10) (List.take_append_drop (trimmed n) (padded n))
  rw [Nat.ofDigits_append, ofDigits_take_trimmed, ofDigits_padded, List.length_take,
    min_eq_left (by omega), zero_add] at hsplit
  rw [hexp, magnitudeDigits, fractionDigits, ← List.reverse_append, hdrop, numeral_reverse, mul_comm, hsplit]

theorem takeWhile_map_digitChar {ds : List Nat} (h : ∀ d ∈ ds, d < 10) :
    ((ds.map digitChar).takeWhile (· = ch '0')).length = (ds.takeWhile (· = 0)).length := by
  induction ds with
  | nil => rfl
  | cons d ds ih =>
    have hval := digitChar_val (h d List.mem_cons_self)
    have hiff : digitChar d = ch '0' ↔ d = 0 := by
      rw [Fin.ext_iff, hval]
      change 48 + d = 48 ↔ d = 0
      omega
    simp only [List.map_cons, List.takeWhile_cons, hiff]
    by_cases hd : d = 0
    · simp [hd, ih fun e he => h e (List.mem_cons_of_mem _ he)]
    · simp [hd]

/-- The text of a decimal: sign, digits, the point, and up to six digits without zeros at the end. -/
theorem stringValue_eq {d : MojDecimal} (h : d ≠ least) :
    d.stringValue = (if decide (¬ d.rep < 0) then [] else [ch '-']) ++
      ((magnitudeDigits d.rep.toInt.natAbs).map digitChar ++
        ch '.' :: (fractionDigits d.rep.toInt.natAbs).map digitChar) := by
  have hrep : d.rep ≠ Int64.minValue := fun he => h (by cases d; exact congrArg MojDecimal.mk he)
  have hlt : d.rep.toInt.natAbs < 10 ^ MaxStringSize := by
    have hlo := d.rep.minValue_le_toInt
    have hhi := d.rep.toInt_le
    have hmin : Int64.minValue.toInt = -9223372036854775808 := rfl
    have hmax : Int64.maxValue.toInt = 9223372036854775807 := rfl
    have hpow : 10 ^ MaxStringSize = 1000000000000000000000000 := rfl
    omega
  have hreplicate : ∀ k, List.replicate k (ch '0') = (List.replicate k 0).map digitChar := by
    intro k
    rw [List.map_replicate]
    rfl
  have hpadded : ∀ n, (Nat.digits 10 n).map digitChar ++
      List.replicate (Precision + 1 - ((Nat.digits 10 n).map digitChar).length) (ch '0') =
        (padded n).map digitChar := by
    intro n
    rw [List.length_map, hreplicate, ← List.map_append]
    rfl
  rw [stringValue, mojAbs_toInt hrep, repDigits_eq _ _ hlt]
  simp only [hpadded, takeWhile_map_digitChar (padded_lt _)]
  rw [← List.map_drop, ← List.map_reverse, ← List.map_take, ← List.map_drop, ← List.map_reverse]
  congr 1
  by_cases hneg : d.rep < 0
  · simp [hneg]
  · simp [hneg]

theorem signed_natAbs (rep : Int64) (h : rep.toInt.natAbs ≤ MojInt64Max) :
    (if decide (¬ rep < 0) then Int64.ofNat rep.toInt.natAbs else -Int64.ofNat rep.toInt.natAbs) = rep := by
  have hneg : rep < 0 ↔ rep.toInt < 0 := by rw [Int64.lt_iff_toInt_lt, Int64.toInt_zero]
  rw [MojInt64Max_eq] at h
  rw [← Int64.toInt_inj]
  by_cases hrep : rep < 0
  · rw [if_neg (by simpa using hrep), Int64.toInt_neg_ofNat_of_le (by omega)]
    have := hneg.mp hrep
    omega
  · rw [if_pos (decide_eq_true hrep), Int64.toInt_ofNat_of_lt (by omega)]
    have : ¬ rep.toInt < 0 := fun hlt => hrep (hneg.mpr hlt)
    omega

/-- **The text of a decimal stands for that decimal**, except for the least one. -/
theorem assign_stringValue {d : MojDecimal} (h : d ≠ least) : assign d.stringValue = .ok d := by
  have hvalue := numeral_trimmed d.rep.toInt.natAbs
  have hlen := fractionDigits_length d.rep.toInt.natAbs
  have hle : d.rep.toInt.natAbs ≤ MojInt64Max := by
    have hlo := d.rep.minValue_le_toInt
    have hhi := d.rep.toInt_le
    have hmin : Int64.minValue.toInt = -9223372036854775808 := rfl
    have hmax : Int64.maxValue.toInt = 9223372036854775807 := rfl
    have hne : d.rep.toInt ≠ -9223372036854775808 := fun he =>
      h (by cases d; exact congrArg MojDecimal.mk (Int64.toInt_inj.mp (he.trans hmin.symm)))
    rw [MojInt64Max_eq]
    omega
  have hnum : numeral 0 (magnitudeDigits d.rep.toInt.natAbs ++ fractionDigits d.rep.toInt.natAbs) ≤
      MojInt64Max := by
    refine le_trans ?_ hle
    conv_rhs => rw [← hvalue]
    exact Nat.le_mul_of_pos_right _ (Nat.pow_pos (by decide))
  obtain ⟨p, hp, hread⟩ := MojNumber.Lexer.parse_read (magnitudeDigits_lt _) (fractionDigits_lt _)
    (magnitudeDigits_ne_nil _) (fractionDigits_ne_nil _) hnum (decide (¬ d.rep < 0))
  rw [assign, stringValue_eq h, hp, ok_bind, toDecimal_read hread (by omega) (by rw [hvalue]; exact hle), hvalue]
  rw [signed_natAbs d.rep hle]

end MojDecimal

/-! ### No text stands for the least decimal -/

namespace MojNumber

namespace Parser

/-- The value is a `uint64_t`. -/
def Fits (p : Parser) : Prop := p.value < 2 ^ 64

theorem pushDigit_fits {p q : Parser} {x : Nat} (hx : x < 10) (h : p.pushDigit x = .ok q) : q.Fits := by
  unfold pushDigit at h
  split_ifs at h with hbound
  cases h
  have hval : bound = 1844674407370955160 := rfl
  have hbase : base = 10 := rfl
  change p.value * base + x < 2 ^ 64
  rw [hval] at hbound
  rw [hbase]
  omega

theorem digit_fits {p q : Parser} {x : Nat} (hx : x < 10) (hp : p.Fits) (h : p.digit x = .ok q) :
    q.Fits := by
  unfold digit at h
  split_ifs at h
  · cases h
    exact hp
  · exact pushDigit_fits hx h

theorem exponentDigit_fits {p q : Parser} {x : Nat} (hp : p.Fits) (h : p.exponentDigit x = .ok q) :
    q.Fits := by
  unfold exponentDigit at h
  split_ifs at h
  · cases h
    exact hp
  · cases h
    exact hp

theorem finish_fits {p : Parser} (h : p.Fits) : p.finish.Fits := by
  unfold finish
  split_ifs
  · exact h
  · exact h

theorem signed_ne_least {n : Nat} (h : n ≤ MojInt64Max) (positive : Bool) :
    (⟨if positive then Int64.ofNat n else -Int64.ofNat n⟩ : MojDecimal) ≠ MojDecimal.least := by
  intro he
  have hrep : (if positive then Int64.ofNat n else -Int64.ofNat n).toInt = Int64.minValue.toInt :=
    congrArg (fun d : MojDecimal => d.rep.toInt) he
  have hmin : Int64.minValue.toInt = -9223372036854775808 := rfl
  rw [MojInt64Max_eq] at h
  cases positive with
  | true =>
    rw [if_pos rfl, Int64.toInt_ofNat_of_lt (by omega), hmin] at hrep
    omega
  | false =>
    rw [if_neg Bool.false_ne_true, Int64.toInt_neg_ofNat_of_le (by omega), hmin] at hrep
    omega

theorem toDecimal_ne_least {p : Parser} (hp : p.Fits) {d : MojDecimal} (h : p.toDecimal = .ok d) :
    d ≠ MojDecimal.least := by
  have hbase : base = 10 := rfl
  have hlt : p.value < 2 ^ 64 := hp
  unfold toDecimal at h
  simp only at h
  by_cases hneg : Precision + p.valueExp + p.exponent < 0
  · rw [if_pos hneg] at h
    by_cases hsmall : -(Precision + p.valueExp + p.exponent) > int64_pow_max
    · rw [if_pos hsmall] at h
      cases h
      decide
    · rw [if_neg hsmall] at h
      cases h
      refine signed_ne_least ?_ p.positive
      have hdrop : ∀ k, (if Precision + p.valueExp + p.exponent < -1 then p.value / k else p.value) ≤ p.value := by
        intro k
        split_ifs
        · exact Nat.div_le_self _ _
        · exact le_rfl
      have hrep := hdrop (npow base (-(Precision + p.valueExp + p.exponent) - 1).toNat)
      generalize (if Precision + p.valueExp + p.exponent < -1 then
        p.value / npow base (-(Precision + p.valueExp + p.exponent) - 1).toNat else p.value) = rep at hrep ⊢
      rw [MojInt64Max_eq, hbase]
      split_ifs
      · omega
      · omega
  · rw [if_neg hneg] at h
    split_ifs at h with hbig hfactor hpos
    · cases h
      exact signed_ne_least ((Nat.mul_le_mul_right _ (Nat.le_of_not_gt hfactor)).trans
        (Nat.div_mul_le_self _ _)) true
    · cases h
      exact signed_ne_least ((Nat.mul_le_mul_right _ (Nat.le_of_not_gt hfactor)).trans
        (Nat.div_mul_le_self _ _)) false

end Parser

namespace Lexer

theorem digit?_lt {c : MojByte} {x : Nat} (h : digit? c = some x) : x < 10 := by
  unfold digit? at h
  split_ifs at h with hc
  cases h
  omega

theorem magnitudeChar_fits {p : Parser} (hp : p.Fits) {c : MojByte} {s : State × Parser}
    (h : magnitudeChar p c = .ok s) : s.2.Fits := by
  unfold magnitudeChar at h
  split at h
  · rename_i x hx
    obtain ⟨q, hq, h⟩ := bind_eq_ok.mp h
    cases h
    exact Parser.digit_fits (digit?_lt hx) hp hq
  · split_ifs at h
    · cases h
      exact hp
    · cases h
      exact hp

theorem exponentChar_fits {p : Parser} (hp : p.Fits) {c : MojByte} {s : State × Parser}
    (h : exponentChar p c = .ok s) : s.2.Fits := by
  unfold exponentChar at h
  split at h
  · obtain ⟨q, hq, h⟩ := bind_eq_ok.mp h
    cases h
    exact Parser.exponentDigit_fits hp hq
  · cases h

theorem fraction_fits {p : Parser} {x : Nat} (hx : x < 10) {s : State × Parser}
    (h : (do return (.stateFractionDigits, ← p.fractionDigit x) : Except MojErr (State × Parser)) = .ok s) :
    s.2.Fits := by
  obtain ⟨q, hq, h⟩ := bind_eq_ok.mp h
  cases h
  exact Parser.pushDigit_fits hx hq

theorem step_fits (s : State × Parser) (c : MojByte) (s' : State × Parser) (h : step s c = .ok s')
    (hs : s.2.Fits) : s'.2.Fits := by
  obtain ⟨state, p⟩ := s
  cases state with
  | stateNumber =>
    simp only [step] at h
    split_ifs at h
    · cases h
      exact hs
    · cases h
      exact hs
    · exact magnitudeChar_fits hs h
  | stateMagnitude => exact magnitudeChar_fits hs h
  | stateMagnitudeDigits => exact magnitudeChar_fits hs h
  | stateFraction =>
    simp only [step] at h
    split at h
    · rename_i x hx
      exact fraction_fits (digit?_lt hx) h
    · cases h
  | stateFractionDigits =>
    simp only [step] at h
    split at h
    · rename_i x hx
      exact fraction_fits (digit?_lt hx) h
    · split_ifs at h
      cases h
      exact hs
  | stateExponent =>
    simp only [step] at h
    split_ifs at h
    · cases h
      exact hs
    · cases h
      exact hs
    · exact exponentChar_fits hs h
  | stateExponentFirstDigit => exact exponentChar_fits hs h
  | stateExponentDigits => exact exponentChar_fits hs h

end Lexer

end MojNumber

theorem MojDecimal.assign_ne_least {str : List MojByte} {d : MojDecimal} (h : assign str = .ok d) :
    d ≠ least := by
  obtain ⟨p, hp, h⟩ := bind_eq_ok.mp h
  obtain ⟨⟨state, q⟩, hq, hp⟩ := bind_eq_ok.mp hp
  have hfits : q.Fits := foldlM_inv (fun s : MojNumber.Lexer.State × MojNumber.Parser => s.2.Fits)
    MojNumber.Lexer.step_fits hq (show (0 : Nat) < 2 ^ 64 by decide)
  simp only at hp
  split_ifs at hp
  cases hp
  exact MojNumber.Parser.toDecimal_ne_least (MojNumber.Parser.finish_fits hfits) h

/-- The text of a decimal is read back as that decimal just when it is not the least one. -/
theorem MojDecimal.assign_stringValue_iff (d : MojDecimal) : assign d.stringValue = .ok d ↔ d ≠ least :=
  ⟨assign_ne_least, assign_stringValue⟩

/-- The text of the least decimal is not even a number. -/
theorem MojDecimal.assign_stringValue_least : assign least.stringValue = .error .invalidDecimal := rfl

/-! ## The characters of a number -/

/-- The characters of numbers lie between `'` and `9`, also those of the least decimal. -/
def IsNumeral (c : MojByte) : Prop := 39 ≤ c.val ∧ c.val ≤ 57

instance (c : MojByte) : Decidable (IsNumeral c) := inferInstanceAs (Decidable (_ ∧ _))

theorem isNumeral_minus : IsNumeral (ch '-') := by decide

theorem isNumeral_digitChar {d : Nat} (h : d < 10) : IsNumeral (digitChar d) := by
  unfold IsNumeral
  rw [digitChar_val h]
  omega

theorem isNumeral_intText (i : Int64) : ∀ c ∈ intText i, IsNumeral c := by
  intro c hc
  rw [intText_eq, List.mem_append] at hc
  cases hc with
  | inl hc =>
    split_ifs at hc
    · exact List.mem_singleton.mp hc ▸ isNumeral_minus
    · cases hc
  | inr hc =>
    obtain ⟨d, hd, rfl⟩ := List.mem_map.mp hc
    exact isNumeral_digitChar (natDigits_lt _ d hd)

namespace MojDecimal

theorem isNumeral_repDigits (size : Nat) (rep : Int) : ∀ c ∈ repDigits size rep, IsNumeral c := by
  induction size generalizing rep with
  | zero => simp [repDigits]
  | succ size ih =>
    intro c hc
    rw [repDigits] at hc
    split_ifs at hc
    · cases hc
    · cases List.mem_cons.mp hc with
      | inl he =>
        have hlt := Int.tmod_lt_of_pos rep (b := 10) (by omega)
        have hgt := Int.lt_tmod_of_pos rep (b := 10) (by omega)
        subst he
        simp only [IsNumeral, Fin.val_ofNat]
        omega
      | inr hc => exact ih _ c hc

theorem isNumeral_stringValue (d : MojDecimal) : ∀ c ∈ d.stringValue, IsNumeral c := by
  intro c hc
  have htmp : ∀ {n : Nat}, c ∈ repDigits MaxStringSize (mojAbs d.rep).toInt ++ List.replicate n (ch '0') →
      IsNumeral c := by
    intro n hc
    cases List.mem_append.mp hc with
    | inl hc => exact isNumeral_repDigits _ _ c hc
    | inr hc => exact List.eq_of_mem_replicate hc ▸ (by decide)
  simp only [stringValue, List.mem_append, List.mem_reverse, List.mem_cons] at hc
  obtain hc | hc | rfl | hc := hc
  · split_ifs at hc
    · exact List.mem_singleton.mp hc ▸ isNumeral_minus
    · cases hc
  · exact htmp (List.mem_of_mem_drop hc)
  · decide
  · exact htmp (List.mem_of_mem_take (List.mem_of_mem_drop hc))

end MojDecimal

end Db8
