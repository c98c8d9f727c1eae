import Db8.Core.MojDouble
import Db8.Core.MojJsonWriter

/-!
# Core.MojSchemaRules

The rules of a schema that look at one value only: bounds of numbers, of lengths, and divisors.

* `CompRule`, `DivisibleRule`, `ArrayLenRule`, `StringLenRule` — what the rule keeps of the schema, and its check.
* `units`                — a number in millionths, the unit of `MojDecimal`, without the limit to 64 bits.
* `decides_iff`          — which numbers the rules decide as their values ask for.
-/

namespace Db8

namespace MojObject

/-- `MojObject::decimalValue`; `strToDouble` is `MojStrToDouble`. -/
def decimalValue (strToDouble : MojString → ℚ) : MojObject → MojDecimal
  | .string s => .ofDouble (strToDouble s)
  | .bool b => .ofMagnitude (if b then 1 else 0)
  | .decimal d => d
  | .int i => .ofMagnitude i
  | _ => ⟨0⟩

end MojObject

namespace MojSchema

/-- Whether no rule has failed, and what the last one that did said. -/
structure Result where
  valid : Bool
  msg : List MojByte

def text (s : String) : List MojByte := s.toList.map ch

def Result.fail (msg : String) : Result := ⟨false, text msg⟩

/-- A division the processor does not carry out. -/
inductive Trap where
  | divisionOverflow
  deriving DecidableEq

def isNumber (val : MojObject) : Bool := val.type = .typeInt || val.type = .typeDecimal

/-! ## Bounds of numbers -/

/-- `MaxRule` and `MinRule`. -/
structure CompRule where
  isMax : Bool
  val : MojDecimal
  canEqual : Bool

def CompRule.fromObject (strToDouble : MojString → ℚ) (isMax : Bool) (obj : MojObject) : CompRule :=
  ⟨isMax, obj.decimalValue strToDouble, true⟩

/-- The four comparisons of the two rules. -/
def CompRule.holds (rule : CompRule) (decVal : MojDecimal) : Bool :=
  match rule.isMax, rule.canEqual with
  | true, true => decVal.rep ≤ rule.val.rep
  | true, false => decVal.rep < rule.val.rep
  | false, true => decVal.rep ≥ rule.val.rep
  | false, false => decVal.rep > rule.val.rep

def CompRule.validate (strToDouble : MojString → ℚ) (rule : CompRule) (val : MojObject) (res : Result) : Result :=
  if isNumber val then
    if rule.holds (val.decimalValue strToDouble) then res else .fail "value out of range"
  else res

/-! ## Divisors -/

structure DivisibleRule where
  val : Int64

def DivisibleRule.fromObject (obj : MojObject) : DivisibleRule := ⟨obj.intValue⟩

/-- `a % b`: the quotient of the least number by -1 has no place in 64 bits. -/
def remainder (a b : Int64) : Except Trap Int64 :=
  if a = Int64.minValue ∧ b = -1 then .error .divisionOverflow else .ok (a % b)

def DivisibleRule.validate (rule : DivisibleRule) (val : MojObject) (res : Result) : Except Trap Result :=
  if !isNumber val then .ok res
  else
    let fails : Result := ⟨false, text "value not divisible by " ++ intText rule.val⟩
    if rule.val = 0 then .ok fails
    else do
      let rem ← remainder val.intValue rule.val
      if rem ≠ 0 then return fails
      else
        match val with
        | .decimal d => if d.fraction ≠ 0 then return fails else return res
        | _ => return res

/-! ## Bounds of lengths -/

/-- `MaxItemsRule` and `MinItemsRule`. -/
structure ArrayLenRule where
  isMax : Bool
  val : Int64

def ArrayLenRule.fromObject (isMax : Bool) (obj : MojObject) : ArrayLenRule := ⟨isMax, obj.intValue⟩

def ArrayLenRule.validate (rule : ArrayLenRule) (val : MojObject) (res : Result) : Result :=
  match val with
  | .array vec =>
    if if rule.isMax then (vec.length : Int) ≤ rule.val.toInt else (vec.length : Int) ≥ rule.val.toInt then res
    else .fail "array length out of range"
  | _ => res

/-- `MaxLenRule` and `MinLenRule`. -/
structure StringLenRule where
  isMax : Bool
  val : Int64

def StringLenRule.fromObject (isMax : Bool) (obj : MojObject) : StringLenRule := ⟨isMax, obj.intValue⟩

def StringLenRule.validate (rule : StringLenRule) (val : MojObject) (res : Result) : Result :=
  match val with
  | .string str =>
    if if rule.isMax then (str.chars.length : Int) ≤ rule.val.toInt else (str.chars.length : Int) ≥ rule.val.toInt then res
    else .fail "string length out of range"
  | _ => res

/-! ## What the numbers are -/

/-- A value in millionths. An integer has any number of them, everything else what its `MojDecimal` holds. -/
def units (strToDouble : MojString → ℚ) : MojObject → Int
  | .int i => i.toInt * 1000000
  | o => (o.decimalValue strToDouble).rep.toInt

/-- How often 2^64 is lost of a number that is kept in 64 bits. -/
def wraps (x : Int) : Int := (x + 2 ^ 63) / 2 ^ 64

/-- What is kept of it. -/
def kept (x : Int) : Int := x - wraps x * 2 ^ 64

theorem kept_eq_bmod (x : Int) : kept x = x.bmod (2 ^ 64) := by
  unfold kept wraps Int.bmod
  dsimp only
  split_ifs
  · omega
  · omega

/-- A number is kept when it is no larger than a `MojDecimal` can be. -/
theorem wraps_eq_zero {x : Int} (hlow : -(2 ^ 63) ≤ x) (hhigh : x < 2 ^ 63) : wraps x = 0 := by
  unfold wraps
  omega

theorem kept_toInt (i : Int64) : kept i.toInt = i.toInt := by
  rw [kept, wraps_eq_zero i.le_toInt i.toInt_lt, Int.zero_mul, Int.sub_zero]

theorem rep_eq_kept (strToDouble : MojString → ℚ) (o : MojObject) :
    (o.decimalValue strToDouble).rep.toInt = kept (units strToDouble o) := by
  cases o with
  | int i =>
    rw [kept_eq_bmod]
    exact Int64.toInt_mul i MojDecimal.Numerator
  | undefined => exact (kept_toInt _).symm
  | null => exact (kept_toInt _).symm
  | object ps => exact (kept_toInt _).symm
  | array vec => exact (kept_toInt _).symm
  | string s => exact (kept_toInt _).symm
  | bool b => exact (kept_toInt _).symm
  | decimal d => exact (kept_toInt _).symm

/-- Both numbers lose 2^64 equally often, or they are further apart than what one loses more than the other. -/
def OrderKept (x y : Int) : Prop :=
  wraps x = wraps y ∨ x < y ∧ (wraps y - wraps x) * 2 ^ 64 < y - x ∨ y < x ∧ (wraps x - wraps y) * 2 ^ 64 < x - y

theorem orderKept_iff {x y : Int} : OrderKept x y ↔ (x ≤ y ↔ kept x ≤ kept y) ∧ (y ≤ x ↔ kept y ≤ kept x) := by
  unfold OrderKept kept wraps
  omega

/-! ## Numbers the rules decide -/

/-- What `minimum` and `maximum` ask of a number. -/
def InBound (isMax canEqual : Bool) (x bound : Int) : Prop :=
  match isMax, canEqual with
  | true, true => x ≤ bound
  | true, false => x < bound
  | false, true => bound ≤ x
  | false, false => bound < x

theorem compRule_valid (strToDouble : MojString → ℚ) (rule : CompRule) {val : MojObject} (hval : isNumber val = true)
    {res : Result} (hres : res.valid = true) :
    (rule.validate strToDouble val res).valid = true ↔
      InBound rule.isMax rule.canEqual (kept (units strToDouble val)) rule.val.rep.toInt := by
  have hholds : rule.holds (val.decimalValue strToDouble) = true ↔
      InBound rule.isMax rule.canEqual (kept (units strToDouble val)) rule.val.rep.toInt := by
    rw [← rep_eq_kept]
    unfold CompRule.holds InBound
    split
    · rw [decide_eq_true_iff, Int64.le_iff_toInt_le]
    · rw [decide_eq_true_iff, Int64.lt_iff_toInt_lt]
    · rw [decide_eq_true_iff, ge_iff_le, Int64.le_iff_toInt_le]
    · rw [decide_eq_true_iff, gt_iff_lt, Int64.lt_iff_toInt_lt]
  rw [CompRule.validate, if_pos hval, ← hholds]
  split_ifs with h
  · exact iff_of_true hres h
  · exact iff_of_false nofun h

/-- **A bound is decided as the numbers ask for** when their order is kept. -/
theorem compRule_iff (strToDouble : MojString → ℚ) {val bound : MojObject} (hval : isNumber val = true) :
    (∀ (isMax canEqual : Bool) (res : Result), res.valid = true →
      (({ CompRule.fromObject strToDouble isMax bound with canEqual }.validate strToDouble val res).valid = true ↔
        InBound isMax canEqual (units strToDouble val) (units strToDouble bound))) ↔
      OrderKept (units strToDouble val) (units strToDouble bound) := by
  have hstep : ∀ (isMax canEqual : Bool) (res : Result), res.valid = true →
      (({ CompRule.fromObject strToDouble isMax bound with canEqual }.validate strToDouble val res).valid = true ↔
        InBound isMax canEqual (kept (units strToDouble val)) (kept (units strToDouble bound))) := by
    intro isMax canEqual res hres
    rw [compRule_valid strToDouble _ hval hres, ← rep_eq_kept strToDouble bound]
    rfl
  rw [orderKept_iff]
  constructor
  · intro h
    have hmax := (hstep true true ⟨true, []⟩ rfl).symm.trans (h true true ⟨true, []⟩ rfl)
    have hmin := (hstep false true ⟨true, []⟩ rfl).symm.trans (h false true ⟨true, []⟩ rfl)
    exact ⟨hmax.symm, hmin.symm⟩
  · intro h isMax canEqual res hres
    rw [hstep isMax canEqual res hres]
    unfold InBound
    split
    · exact h.1.symm
    · rw [← not_le, ← not_le, h.2]
    · exact h.2.symm
    · rw [← not_le, ← not_le, h.1]

theorem dvd_mod_iff {a b : Int64} : a % b = 0 ↔ b.toInt ∣ a.toInt := by
  rw [← Int64.toInt_inj, Int64.toInt_mod, Int.dvd_iff_tmod_eq_zero]
  rfl

theorem fraction_eq_zero_iff (d : MojDecimal) : d.fraction = 0 ↔ 1000000 ∣ d.rep.toInt := by
  have hnum : MojDecimal.Numerator.toInt = 1000000 := by decide
  have hneg : (1000000 : Int) ∣ (-d.rep).toInt ↔ 1000000 ∣ d.rep.toInt := by
    have hlow := d.rep.le_toInt
    have hhigh := d.rep.toInt_lt
    rw [Int64.toInt_neg, ← kept_eq_bmod, kept]
    by_cases hmin : d.rep.toInt = -(2 ^ 63)
    · rw [hmin]
      decide
    · rw [wraps_eq_zero (by omega) (by omega), Int.zero_mul, Int.sub_zero, Int.dvd_neg]
  unfold MojDecimal.fraction
  rw [dvd_mod_iff, hnum]
  split_ifs
  · exact hneg
  · exact Iff.rfl

/-- The whole part of a number of millionths that has no fraction. -/
theorem dvd_units_iff (strToDouble : MojString → ℚ) {val : MojObject} (hval : isNumber val = true) (b : Int) :
    b * 1000000 ∣ units strToDouble val ↔
      b ∣ val.intValue.toInt ∧ ∀ d, val = .decimal d → 1000000 ∣ d.rep.toInt := by
  cases val with
  | int i =>
    have hmul : b * 1000000 ∣ i.toInt * 1000000 ↔ b ∣ i.toInt := Int.mul_dvd_mul_iff_right (by decide)
    exact hmul.trans (iff_self_and.mpr fun _ d hd => by cases hd)
  | decimal d =>
    have hwhole : (MojObject.decimal d).intValue.toInt = d.rep.toInt.tdiv 1000000 := by
      have hlow := d.rep.le_toInt
      have hhigh := d.rep.toInt_lt
      have habs : (d.rep.toInt.tdiv 1000000).natAbs = d.rep.toInt.natAbs / 1000000 := Int.natAbs_tdiv _ _
      refine Int64.toInt_ofInt_of_le ?_ ?_
      · omega
      · omega
    rw [hwhole]
    constructor
    · intro h
      have hpoint : (1000000 : Int) ∣ d.rep.toInt := (Int.dvd_mul_left b 1000000).trans h
      obtain ⟨m, hm⟩ := hpoint
      obtain ⟨n, hn⟩ := h
      refine ⟨⟨n, ?_⟩, ?_⟩
      · change d.rep.toInt = _ at hn
        rw [hn, Int.mul_right_comm, Int.mul_tdiv_cancel _ (by decide)]
      · intro e he
        obtain rfl := MojObject.decimal.inj he
        exact ⟨m, hm⟩
    · intro h
      obtain ⟨⟨n, hn⟩, hpoint⟩ := h
      obtain ⟨m, hm⟩ := hpoint d rfl
      rw [hm, Int.mul_tdiv_cancel_left _ (by decide)] at hn
      refine ⟨n, ?_⟩
      change d.rep.toInt = _
      rw [hm, hn]
      ring
  | _ => cases hval

/-- The rule divides by the part of its number before the point, and zero divides nothing. -/
theorem divisibleRule_validate (strToDouble : MojString → ℚ) {rule : DivisibleRule} {val : MojObject} {res : Result}
    (hval : isNumber val = true) (hres : res.valid = true) (htrap : ¬(val.intValue = Int64.minValue ∧ rule.val = -1)) :
    ∃ res', rule.validate val res = .ok res' ∧
      (res'.valid = true ↔ rule.val ≠ 0 ∧ rule.val.toInt * 1000000 ∣ units strToDouble val) := by
  have hnumber : ¬(!isNumber val) = true := by simp [hval]
  rw [DivisibleRule.validate, if_neg hnumber]
  by_cases hzero : rule.val = 0
  · rw [if_pos hzero]
    exact ⟨_, rfl, iff_of_false nofun fun h => h.1 hzero⟩
  rw [if_neg hzero, remainder, if_neg htrap, Lib.ok_bind, dvd_units_iff strToDouble hval]
  by_cases hrem : val.intValue % rule.val = 0
  · have hdvd := dvd_mod_iff.mp hrem
    rw [if_neg (not_not.mpr hrem)]
    cases val with
    | int i => exact ⟨_, rfl, iff_of_true hres ⟨hzero, hdvd, fun d hd => by cases hd⟩⟩
    | decimal d =>
      dsimp only
      by_cases hfrac : d.fraction = 0
      · have hpoint := (fraction_eq_zero_iff d).mp hfrac
        rw [if_neg (not_not.mpr hfrac)]
        refine ⟨_, rfl, iff_of_true hres ⟨hzero, hdvd, fun e he => ?_⟩⟩
        exact MojObject.decimal.inj he ▸ hpoint
      · rw [if_pos hfrac]
        exact ⟨_, rfl, iff_of_false nofun fun h => hfrac ((fraction_eq_zero_iff d).mpr (h.2.2 d rfl))⟩
    | _ => cases hval
  · rw [if_pos hrem]
    exact ⟨_, rfl, iff_of_false nofun fun h => hrem (dvd_mod_iff.mpr h.2.1)⟩

theorem divisibleRule_trap {rule : DivisibleRule} {val : MojObject} {res : Result} (hval : isNumber val = true)
    (htrap : val.intValue = Int64.minValue ∧ rule.val = -1) : rule.validate val res = .error .divisionOverflow := by
  have hnumber : ¬(!isNumber val) = true := by simp [hval]
  have hzero : rule.val ≠ 0 := by
    rw [htrap.2]
    decide
  rw [DivisibleRule.validate, if_neg hnumber, if_neg hzero, remainder, if_pos htrap]
  rfl

/-- The numerator in lowest terms of a number of millionths. -/
def numerator (d : Int) : Int := d / Int.gcd d 1000000

/-- A whole divisor, in millionths, divides as it should but for the least number by -1 and zero by zero. One with a
fraction does when the number is a multiple of its part before the point and of its numerator, or of neither. -/
def DivisionKept (v d : Int) : Prop :=
  if 1000000 ∣ d then ¬(v = -2 ^ 63 ∧ d = -1000000) ∧ (d ≠ 0 ∨ v ≠ 0)
  else ¬(v = -2 ^ 63 ∧ d.tdiv 1000000 = -1) ∧
    ((d.tdiv 1000000 ≠ 0 ∧ d.tdiv 1000000 ∣ v) ∧ numerator d ∣ v ∨
      ¬(d.tdiv 1000000 ≠ 0 ∧ d.tdiv 1000000 ∣ v) ∧ ¬numerator d ∣ v)

theorem gcd_pos (d : Int) : 0 < (Int.gcd d 1000000 : Int) :=
  Int.natCast_pos.mpr (Int.gcd_pos_of_ne_zero_right d (by decide))

theorem numerator_mul_gcd (d : Int) : numerator d * Int.gcd d 1000000 = d :=
  Int.ediv_mul_cancel (Int.gcd_dvd_left ..)

/-- A divisor divides a whole number just when its numerator does. -/
theorem dvd_mul_iff (d v : Int) : d ∣ v * 1000000 ↔ numerator d ∣ v := by
  have hpos := gcd_pos d
  have hcoprime : IsCoprime (numerator d) (1000000 / Int.gcd d 1000000) :=
    Int.isCoprime_iff_gcd_eq_one.mpr (Int.gcd_div_gcd_div_gcd (Int.natCast_pos.mp hpos))
  have hden : (1000000 : Int) / Int.gcd d 1000000 * Int.gcd d 1000000 = 1000000 :=
    Int.ediv_mul_cancel (Int.gcd_dvd_right ..)
  have hcancel : d ∣ v * 1000000 ↔ numerator d ∣ v * (1000000 / Int.gcd d 1000000) := by
    have hmul : numerator d * Int.gcd d 1000000 ∣ v * (1000000 / Int.gcd d 1000000) * Int.gcd d 1000000 ↔
        numerator d ∣ v * (1000000 / Int.gcd d 1000000) := Int.mul_dvd_mul_iff_right hpos.ne'
    rwa [numerator_mul_gcd, mul_assoc, hden] at hmul
  rw [hcancel]
  exact ⟨hcoprime.dvd_of_dvd_mul_right, fun h => h.mul_right _⟩

/-- The part of a number before the point. -/
theorem intValue_toInt (strToDouble : MojString → ℚ) {val : MojObject} (hval : isNumber val = true) :
    val.intValue.toInt = (units strToDouble val).tdiv 1000000 := by
  cases val with
  | int i => exact (Int.mul_tdiv_cancel i.toInt (by decide)).symm
  | decimal d =>
    have hlow := d.rep.le_toInt
    have hhigh := d.rep.toInt_lt
    have habs : (d.rep.toInt.tdiv 1000000).natAbs = d.rep.toInt.natAbs / 1000000 := Int.natAbs_tdiv _ _
    refine Int64.toInt_ofInt_of_le ?_ ?_
    · omega
    · omega
  | _ => cases hval

/-- **A divisor is decided as the numbers ask for**, without a trap, when the division is kept. -/
theorem divisibleRule_iff (strToDouble : MojString → ℚ) (v : Int64) {bound : MojObject} (hbound : isNumber bound = true) :
    (∀ res : Result, res.valid = true → ∃ res', (DivisibleRule.fromObject bound).validate (.int v) res = .ok res' ∧
      (res'.valid = true ↔ units strToDouble bound ∣ units strToDouble (.int v))) ↔
      DivisionKept v.toInt (units strToDouble bound) := by
  have hmin : v = Int64.minValue ↔ v.toInt = -2 ^ 63 := by
    rw [← Int64.toInt_inj]
    rfl
  have hone : bound.intValue = -1 ↔ (units strToDouble bound).tdiv 1000000 = -1 := by
    rw [← intValue_toInt strToDouble hbound, ← Int64.toInt_inj]
    rfl
  have hzero : bound.intValue ≠ 0 ↔ (units strToDouble bound).tdiv 1000000 ≠ 0 := by
    rw [← intValue_toInt strToDouble hbound, ne_eq, ne_eq, ← Int64.toInt_inj]
    rfl
  by_cases htrap : v = Int64.minValue ∧ bound.intValue = -1
  · refine iff_of_false (fun h => ?_) fun h => ?_
    · obtain ⟨res', hres', -⟩ := h ⟨true, []⟩ rfl
      rw [@divisibleRule_trap (.fromObject bound) (.int v) ⟨true, []⟩ rfl htrap] at hres'
      cases hres'
    · rw [hmin, hone] at htrap
      unfold DivisionKept at h
      split_ifs at h with hwhole
      · obtain ⟨n, hn⟩ := hwhole
        rw [hn, Int.mul_tdiv_cancel_left _ (by decide)] at htrap
        exact h.1 ⟨htrap.1, by rw [hn, htrap.2]; rfl⟩
      · exact h.1 htrap
  have hrule : (∀ res : Result, res.valid = true → ∃ res', (DivisibleRule.fromObject bound).validate (.int v) res = .ok res' ∧
      (res'.valid = true ↔ units strToDouble bound ∣ units strToDouble (.int v))) ↔
      ((units strToDouble bound).tdiv 1000000 ≠ 0 ∧ (units strToDouble bound).tdiv 1000000 ∣ v.toInt ↔
        numerator (units strToDouble bound) ∣ v.toInt) := by
    have hunits : bound.intValue.toInt * 1000000 ∣ units strToDouble (.int v) ↔
        (units strToDouble bound).tdiv 1000000 ∣ v.toInt := by
      rw [← intValue_toInt strToDouble hbound]
      exact Int.mul_dvd_mul_iff_right (by decide)
    rw [← hzero, ← hunits, ← dvd_mul_iff]
    constructor
    · intro h
      obtain ⟨res', hok, hiff⟩ := h ⟨true, []⟩ rfl
      obtain ⟨res'', hok', hiff'⟩ :=
        @divisibleRule_validate strToDouble (.fromObject bound) (.int v) ⟨true, []⟩ rfl rfl htrap
      obtain rfl := Except.ok.inj (hok.symm.trans hok')
      exact hiff'.symm.trans hiff
    · intro h res hres
      obtain ⟨res', hok, hiff⟩ := @divisibleRule_validate strToDouble (.fromObject bound) (.int v) res rfl hres htrap
      exact ⟨res', hok, hiff.trans h⟩
  rw [hmin, hone] at htrap
  rw [hrule, DivisionKept]
  split_ifs with hwhole
  · obtain ⟨n, hn⟩ := hwhole
    have htdiv : (units strToDouble bound).tdiv 1000000 = n := by
      rw [hn, Int.mul_tdiv_cancel_left _ (by decide)]
    have hnum : numerator (units strToDouble bound) ∣ v.toInt ↔ n ∣ v.toInt := by
      rw [← dvd_mul_iff, hn, Int.mul_comm]
      exact Int.mul_dvd_mul_iff_right (by decide)
    have hne : units strToDouble bound ≠ 0 ↔ n ≠ 0 := by
      omega
    have htrap' : ¬(v.toInt = -2 ^ 63 ∧ units strToDouble bound = -1000000) := fun h => htrap ⟨h.1, by omega⟩
    rw [htdiv, hnum, and_iff_right htrap', hne]
    by_cases hn0 : n = 0
    · subst hn0
      simp
    · simp [hn0]
  · rw [and_iff_right htrap]
    exact iff_iff_and_or_not_and_not

/-- A divisor with a fraction decides wrongly about its part before the point. -/
theorem not_divisionKept_of_fraction {d : Int} (hfraction : ¬1000000 ∣ d) : ¬DivisionKept (d.tdiv 1000000) d := by
  intro h
  rw [DivisionKept, if_neg hfraction] at h
  by_cases hzero : d.tdiv 1000000 = 0
  · rw [hzero] at h
    simp at h
  -- the numerator would have to divide a number that is smaller
  have hnum : numerator d ∣ d.tdiv 1000000 := by
    cases h.2 with
    | inl hboth => exact hboth.2
    | inr hneither => exact absurd ⟨hzero, dvd_refl _⟩ hneither.1
  have hle := Nat.le_of_dvd (Int.natAbs_pos.mpr hzero) (Int.natAbs_dvd_natAbs.mpr hnum)
  have hgcd : Int.gcd d 1000000 ∣ 1000000 := Int.gcd_dvd_natAbs_right d 1000000
  have hproper : Int.gcd d 1000000 ≤ 500000 := by
    obtain ⟨f, hf⟩ := hgcd
    have hone : f ≠ 1 := fun he => hfraction (by
      have hsame : (Int.gcd d 1000000 : Int) = 1000000 := by
        rw [he] at hf
        omega
      exact hsame ▸ Int.gcd_dvd_left d 1000000)
    have hpos : f ≠ 0 := fun he => by
      rw [he] at hf
      omega
    have htwo : Int.gcd d 1000000 * 2 ≤ Int.gcd d 1000000 * f := Nat.mul_le_mul_left _ (by omega)
    omega
  have hwhole : (d.tdiv 1000000).natAbs = d.natAbs / 1000000 := Int.natAbs_tdiv _ _
  have hd : (numerator d).natAbs * Int.gcd d 1000000 = d.natAbs := by
    have hmul := congrArg Int.natAbs (numerator_mul_gcd d)
    rwa [Int.natAbs_mul, Int.natAbs_natCast] at hmul
  have hpos := Int.natAbs_pos.mpr hzero
  have hbound : (numerator d).natAbs * Int.gcd d 1000000 ≤ (d.tdiv 1000000).natAbs * 500000 := Nat.mul_le_mul hle hproper
  omega

/-- An integer or a decimal. -/
def ofNumber : Int64 ⊕ MojDecimal → MojObject
  | .inl i => .int i
  | .inr d => .decimal d

/-- `minimum`, `maximum` and `divisibleBy` decide about the integer as the numbers ask for. -/
structure Decides (strToDouble : MojString → ℚ) (v : Int64) (bound : MojObject) : Prop where
  bounds : ∀ (isMax canEqual : Bool) (res : Result), res.valid = true →
    (({ CompRule.fromObject strToDouble isMax bound with canEqual }.validate strToDouble (.int v) res).valid = true ↔
      InBound isMax canEqual (units strToDouble (.int v)) (units strToDouble bound))
  divisor : ∀ res : Result, res.valid = true → ∃ res', (DivisibleRule.fromObject bound).validate (.int v) res = .ok res' ∧
    (res'.valid = true ↔ units strToDouble bound ∣ units strToDouble (.int v))

theorem isNumber_ofNumber (bound : Int64 ⊕ MojDecimal) : isNumber (ofNumber bound) = true := by
  cases bound with
  | inl i => rfl
  | inr d => rfl

end MojSchema

end Db8
