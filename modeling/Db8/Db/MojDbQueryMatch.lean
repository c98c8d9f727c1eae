import Db8.Db.MojDbQueryPlan

/-!
# Db.MojDbQueryMatch

What a where clause asks of a value, what the ranges of the plan ask of the bytes of a value, and
where the two differ.

* `WhereClause.Matches`    — the value satisfies the clause.
* `WhereClause.KeyMatches` — the bytes of the value are where the plan looks for the clause.
* `keyMatches_iff`         — they agree, but for `%` with an alternative that is no string and whose
  bytes end in a zero: the zero is taken for a string's terminator.
-/

namespace Db8

open Lib

namespace WhereClause

/-- The value a clause value is compared as: collated, then written to a key. -/
def operand (text : MojDbText) (c : WhereClause) (val : MojObject) : MojObject :=
  (text.collate c.collation val).written

/-- The values the lower part lists: several for an array, else one. -/
def lowerOperands (text : MojDbText) (c : WhereClause) : List MojObject :=
  c.lowerVal.alternatives.map (operand text c)

/-- `%`: strings begin with the string; other values are just equal. -/
def PrefixOf : MojObject → MojObject → Prop
  | .string p, .string s => p.chars <+: s.chars
  | alt, val => val = alt

def LowerMatches (text : MojDbText) (c : WhereClause) (val : MojObject) : Prop :=
  match c.lowerOp with
  | .opNone => True
  | .opEq => val ∈ c.lowerOperands text
  | .opNotEq => val ≠ operand text c c.lowerVal
  | .opGreaterThan => val.compare (operand text c c.lowerVal) = .gt
  | .opGreaterThanEq => val.compare (operand text c c.lowerVal) ≠ .lt
  | .opPrefix => ∃ alt ∈ c.lowerOperands text, PrefixOf alt val
  | _ => False

def UpperMatches (text : MojDbText) (c : WhereClause) (val : MojObject) : Prop :=
  match c.upperOp with
  | .opNone => True
  | .opLessThan => val.compare (operand text c c.upperVal) = .lt
  | .opLessThanEq => val.compare (operand text c c.upperVal) ≠ .gt
  | _ => False

def Matches (text : MojDbText) (c : WhereClause) (val : MojObject) : Prop :=
  c.LowerMatches text val ∧ c.UpperMatches text val

/-- `Matches`, with `%` as the plan has it: the bytes begin with those of an alternative less a
final zero. -/
def KeyMatches (text : MojDbText) (c : WhereClause) (val : MojObject) : Prop :=
  if c.lowerOp = .opPrefix then
    ∃ alt ∈ c.lowerOperands text, MojDbQueryPlan.trimPrefix alt.toBytes <+: val.toBytes
  else c.Matches text val

theorem operand_toBytes (text : MojDbText) (c : WhereClause) (val : MojObject) :
    (operand text c val).toBytes = MojDbKey.assign text c.collation val :=
  MojObject.written_toBytes _

theorem isDefined_operand (text : MojDbText) (c : WhereClause) (val : MojObject) :
    (operand text c val).isDefined = true := MojObject.isDefined_written _

theorem isDefined_of_mem_lowerOperands {text : MojDbText} {c : WhereClause} {alt : MojObject}
    (h : alt ∈ c.lowerOperands text) : alt.isDefined = true := by
  obtain ⟨val, -, rfl⟩ := List.mem_map.mp h
  exact isDefined_operand text c val

/-! ## Bytes of a value against bytes of an operand -/

section Bytes

variable {val alt : MojObject} (hval : val.isDefined = true) (halt : alt.isDefined = true)
  (rest : List MojByte)

include hval halt

theorem toBytes_prefix_iff : alt.toBytes <+: val.toBytes ++ rest ↔ val = alt := by
  constructor
  · intro h
    exact MojObject.compare_eq_iff.mp ((MojObject.toBytes_orderCode hval halt).eq_of_isPrefix h)
  · rintro rfl
    exact List.prefix_append _ _

theorem lt_toBytes_iff : val.toBytes ++ rest < alt.toBytes ↔ val.compare alt = .lt :=
  (MojObject.toBytes_orderCode hval halt).append_lt_iff rest

theorem toBytes_le_iff : alt.toBytes ≤ val.toBytes ++ rest ↔ val.compare alt ≠ .lt :=
  (MojObject.toBytes_orderCode hval halt).le_append_iff rest

theorem lt_increment_toBytes_iff :
    val.toBytes ++ rest < MojDbKey.increment alt.toBytes ↔ val.compare alt ≠ .gt := by
  rw [MojDbKey.lt_increment_iff (MojDbKey.increment_toBytes_ne_nil alt), lt_toBytes_iff hval halt,
    toBytes_prefix_iff hval halt, ← MojObject.compare_eq_iff]
  cases val.compare alt <;> simp

theorem increment_toBytes_le_iff :
    MojDbKey.increment alt.toBytes ≤ val.toBytes ++ rest ↔ val.compare alt = .gt := by
  rw [← not_lt, lt_increment_toBytes_iff hval halt, not_not]

end Bytes

/-! ## What the spans ask of the bytes behind the equal properties -/

def LowerRest (text : MojDbText) (c : WhereClause) (rest : List MojByte) : Prop :=
  match c.lowerOp with
  | .opNone => (operand text c c.lowerVal).toBytes ≤ rest
  | .opEq => ∃ alt ∈ c.lowerOperands text, alt.toBytes <+: rest
  | .opNotEq =>
    rest < (operand text c c.lowerVal).toBytes ∨
      MojDbKey.increment (operand text c c.lowerVal).toBytes ≤ rest
  | .opGreaterThan => MojDbKey.increment (operand text c c.lowerVal).toBytes ≤ rest
  | .opGreaterThanEq => (operand text c c.lowerVal).toBytes ≤ rest
  | .opPrefix => ∃ alt ∈ c.lowerOperands text,
      alt.toBytes ≤ rest ∧ rest < MojDbKey.increment (MojDbQueryPlan.trimPrefix alt.toBytes)
  | _ => False

def UpperRest (text : MojDbText) (c : WhereClause) (rest : List MojByte) : Prop :=
  match c.upperOp with
  | .opNone => True
  | .opLessThan => rest < (operand text c c.upperVal).toBytes
  | .opLessThanEq => rest < MojDbKey.increment (operand text c c.upperVal).toBytes
  | _ => False

theorem upperRest_iff {text : MojDbText} {c : WhereClause} {val : MojObject}
    (hval : val.isDefined = true) (rest : List MojByte) :
    c.UpperRest text (val.toBytes ++ rest) ↔ c.UpperMatches text val := by
  have hop := isDefined_operand text c c.upperVal
  unfold UpperRest UpperMatches
  cases c.upperOp <;>
    simp only [lt_toBytes_iff hval hop, lt_increment_toBytes_iff hval hop]

/-! ### The prefix operator -/

theorem trimPrefix_isPrefix (key : MojDbKey) : MojDbQueryPlan.trimPrefix key <+: key := by
  unfold MojDbQueryPlan.trimPrefix
  split_ifs
  exacts [List.dropLast_prefix key, List.prefix_refl key]

/-- The bytes of a value end before or after a prefix of an alternative's bytes, never inside. -/
theorem trimPrefix_prefix_iff {val alt : MojObject} (hval : val.isDefined = true)
    (halt : alt.isDefined = true) (rest : List MojByte) :
    MojDbQueryPlan.trimPrefix alt.toBytes <+: val.toBytes ++ rest ↔
      MojDbQueryPlan.trimPrefix alt.toBytes <+: val.toBytes := by
  refine ⟨fun h => ?_, fun h => h.trans (List.prefix_append _ _)⟩
  rcases List.prefix_or_prefix_of_prefix h (List.prefix_append val.toBytes rest) with h' | h'
  · exact h'
  · obtain rfl := (toBytes_prefix_iff halt hval []).mp
      (by simpa using h'.trans (trimPrefix_isPrefix alt.toBytes))
    exact trimPrefix_isPrefix _

theorem increment_trimPrefix_ne_nil (alt : MojObject) :
    MojDbKey.increment (MojDbQueryPlan.trimPrefix alt.toBytes) ≠ [] := by
  have hmax : ∀ t, (MojObject.firstMarkers t).2 < 255 := by intro t; cases t <;> decide
  obtain ⟨x, u, hx, -, hhi⟩ := MojObject.toBytes_first alt
  obtain ⟨y, w, hy, hpos⟩ := MojObject.toBytes_first_pos alt
  have hx255 : x < 255 := hhi.trans_lt (hmax alt.type)
  unfold MojDbQueryPlan.trimPrefix
  rw [hx] at hy ⊢
  obtain ⟨rfl, rfl⟩ := List.cons.inj hy
  cases u with
  | nil =>
    have hne : x ≠ 0 := (Fin.pos_iff_ne_zero).mp hpos
    simpa [hne] using MojDbKey.increment_ne_nil hx255
  | cons z u =>
    split_ifs
    · rw [List.dropLast_cons_of_ne_nil (List.cons_ne_nil z u)]
      exact MojDbKey.increment_ne_nil hx255
    · exact MojDbKey.increment_ne_nil hx255

/-- A key part that goes on after the trimmed bytes is not below the untrimmed ones. -/
theorem toBytes_le_of_trimPrefix {val alt : MojObject} (hval : val.isDefined = true)
    (halt : alt.isDefined = true) (rest : List MojByte)
    (h : MojDbQueryPlan.trimPrefix alt.toBytes <+: val.toBytes) :
    alt.toBytes ≤ val.toBytes ++ rest := by
  unfold MojDbQueryPlan.trimPrefix at h
  split_ifs at h with hlast
  · obtain ⟨w, hw⟩ := h
    have hsplit : alt.toBytes = alt.toBytes.dropLast ++ [0] :=
      (List.dropLast_append_getLast? 0 hlast).symm
    cases w with
    | nil =>
      rw [List.append_nil] at hw
      have hpre : val.toBytes <+: alt.toBytes ++ [] := by
        rw [← hw, List.append_nil]
        exact List.dropLast_prefix _
      obtain rfl := (toBytes_prefix_iff halt hval []).mp hpre
      exact le_of_isPrefix (List.prefix_append _ _)
    | cons b w =>
      rw [hsplit, ← hw, List.append_assoc, append_le_append_iff, List.cons_append, cons_le_cons_iff]
      rcases (Fin.zero_le b).lt_or_eq with hb | hb
      exacts [.inl hb, .inr ⟨hb, nil_le _⟩]
  · exact le_of_isPrefix (h.trans (List.prefix_append _ _))

theorem prefixRest_iff {val alt : MojObject} (hval : val.isDefined = true)
    (halt : alt.isDefined = true) (rest : List MojByte) :
    alt.toBytes ≤ val.toBytes ++ rest ∧
        val.toBytes ++ rest < MojDbKey.increment (MojDbQueryPlan.trimPrefix alt.toBytes) ↔
      MojDbQueryPlan.trimPrefix alt.toBytes <+: val.toBytes := by
  have hbelow : ∀ k, MojDbKey.Below k (MojDbKey.increment (MojDbQueryPlan.trimPrefix alt.toBytes)) ↔
      k < MojDbKey.increment (MojDbQueryPlan.trimPrefix alt.toBytes) := by
    simp [MojDbKey.Below, increment_trimPrefix_ne_nil]
  constructor
  · rintro ⟨hle, hlt⟩
    rw [← trimPrefix_prefix_iff hval halt rest, MojDbKey.prefix_iff, hbelow]
    exact ⟨(le_of_isPrefix (trimPrefix_isPrefix _)).trans hle, hlt⟩
  · intro h
    have hpre := (trimPrefix_prefix_iff hval halt rest).mpr h
    rw [MojDbKey.prefix_iff, hbelow] at hpre
    exact ⟨toBytes_le_of_trimPrefix hval halt rest h, hpre.2⟩

theorem null_le_toBytes (val : MojObject) (rest : List MojByte) :
    MojObject.undefined.written.toBytes ≤ val.toBytes ++ rest := by
  obtain ⟨x, u, hx, hpos⟩ := MojObject.toBytes_first_pos val
  rw [hx, List.cons_append]
  change [(1 : MojByte)] ≤ x :: (u ++ rest)
  rw [cons_le_cons_iff]
  rcases (Nat.succ_le_of_lt hpos : (1 : MojByte).val ≤ x.val).lt_or_eq with h | h
  exacts [.inl h, .inr ⟨Fin.ext h, nil_le _⟩]

theorem lowerRest_iff {text : MojDbText} {c : WhereClause} {val : MojObject}
    (hval : val.isDefined = true) (rest : List MojByte) :
    c.LowerRest text (val.toBytes ++ rest) ↔
      if c.lowerOp = .opPrefix then
        ∃ alt ∈ c.lowerOperands text, MojDbQueryPlan.trimPrefix alt.toBytes <+: val.toBytes
      else c.LowerMatches text val := by
  have hop := isDefined_operand text c c.lowerVal
  unfold LowerRest LowerMatches
  cases hlower : c.lowerOp with
  | opNone =>
    have hnull : c.operand text c.lowerVal = MojObject.undefined.written := by
      rw [operand, c.valid.lower_none hlower]
      cases c.collation <;> rfl
    simp [hnull, null_le_toBytes]
  | opEq =>
    simp only [reduceCtorEq, if_false]
    constructor
    · rintro ⟨alt, halt, h⟩
      exact ((toBytes_prefix_iff hval (isDefined_of_mem_lowerOperands halt) rest).mp h) ▸ halt
    · intro h
      exact ⟨val, h, List.prefix_append _ _⟩
  | opNotEq =>
    simp only [reduceCtorEq, if_false, lt_toBytes_iff hval hop, increment_toBytes_le_iff hval hop, ne_eq,
      ← MojObject.compare_eq_iff]
    cases val.compare (c.operand text c.lowerVal) <;> simp
  | opGreaterThan => simp only [reduceCtorEq, if_false, increment_toBytes_le_iff hval hop]
  | opGreaterThanEq => simp only [reduceCtorEq, if_false, toBytes_le_iff hval hop]
  | opPrefix =>
    simp only [if_true]
    exact exists_congr fun alt => and_congr_right fun halt =>
      prefixRest_iff hval (isDefined_of_mem_lowerOperands halt) rest
  | _ => simp

/-- Behind the equal properties, the plan accepts the bytes of the values that match by key. -/
theorem rest_iff {text : MojDbText} {c : WhereClause} {val : MojObject}
    (hval : val.isDefined = true) (rest : List MojByte) :
    c.LowerRest text (val.toBytes ++ rest) ∧ c.UpperRest text (val.toBytes ++ rest) ↔
      c.KeyMatches text val := by
  rw [lowerRest_iff hval, upperRest_iff hval, KeyMatches, Matches]
  split_ifs with hpre
  · have hupper : c.upperOp = .opNone := by
      by_contra hne
      rcases c.valid.combination hne with h | h | h <;> simp [hpre] at h
    simp [UpperMatches, hupper]
  · rfl

/-! ## Where the plan and the clause differ -/

/-- The bytes of the value begin with those of an alternative that is no string, less a final zero
byte, and the value is none of the alternatives. -/
def Overmatches (text : MojDbText) (c : WhereClause) (val : MojObject) : Prop :=
  c.lowerOp = .opPrefix ∧ ¬ c.Matches text val ∧
    ∃ alt ∈ c.lowerOperands text, alt.type ≠ .typeString ∧
      MojDbQueryPlan.trimPrefix alt.toBytes <+: val.toBytes

theorem trimPrefix_string (s : MojString) :
    MojDbQueryPlan.trimPrefix (MojObject.string s).toBytes =
      MojObjectWriter.MarkerStringValue :: s.chars := by
  have hbytes : (MojObject.string s).toBytes =
      (MojObjectWriter.MarkerStringValue :: s.chars) ++ [0] := by
    rw [MojObject.toBytes_string]
    rfl
  rw [hbytes, MojDbQueryPlan.trimPrefix, List.getLast?_concat, if_pos rfl, List.dropLast_concat]

theorem type_of_first_string {val : MojObject} {u : List MojByte} (hval : val.isDefined = true)
    (h : val.toBytes = MojObjectWriter.MarkerStringValue :: u) : val.type = .typeString := by
  obtain ⟨x, w, hx, hlo, hhi⟩ := MojObject.toBytes_first val
  obtain ⟨rfl, -⟩ := List.cons.inj (h.symm.trans hx)
  have hne := MojObject.type_ne_undefined hval
  revert hlo hhi hne
  cases val.type <;> decide

/-- The bytes of a string less the terminator begin the bytes of the strings it begins. -/
theorem trimPrefix_string_prefix_iff {p : MojString} {val : MojObject} (hval : val.isDefined = true) :
    MojDbQueryPlan.trimPrefix (MojObject.string p).toBytes <+: val.toBytes ↔
      PrefixOf (.string p) val := by
  rw [trimPrefix_string]
  constructor
  · intro h
    obtain ⟨w, hw⟩ := h
    rw [List.cons_append] at hw
    have htype := type_of_first_string hval hw.symm
    obtain ⟨s, rfl⟩ : ∃ s, val = .string s := by
      cases val <;> simp [MojObject.type] at htype
      exact ⟨_, rfl⟩
    rw [MojObject.toBytes_string, MojObjectWriter.writeString] at hw
    have hchars : p.chars <+: s.chars ++ [0] := ⟨w, (List.cons.inj hw).2⟩
    rcases List.prefix_concat_iff.mp hchars with he | hpre
    · exact absurd (he ▸ List.mem_concat_self) p.nul_free
    · exact hpre
  · intro h
    cases val with
    | string s =>
      rw [MojObject.toBytes_string, MojObjectWriter.writeString]
      exact List.cons_prefix_cons.mpr ⟨rfl, List.IsPrefix.trans h (List.prefix_append _ _)⟩
    | _ => simp [PrefixOf] at h

theorem prefixOf_of_type_ne {alt val : MojObject} (h : alt.type ≠ .typeString) :
    PrefixOf alt val ↔ val = alt := by
  cases alt with
  | string p => exact absurd rfl h
  | _ => rfl

/-- A value that matches a prefix clause has the bytes the plan looks for. -/
theorem trimPrefix_of_prefixOf {alt val : MojObject} (hval : val.isDefined = true)
    (h : PrefixOf alt val) : MojDbQueryPlan.trimPrefix alt.toBytes <+: val.toBytes := by
  by_cases htype : alt.type = .typeString
  · obtain ⟨p, rfl⟩ : ∃ p, alt = .string p := by
      cases alt <;> simp [MojObject.type] at htype
      exact ⟨_, rfl⟩
    exact (trimPrefix_string_prefix_iff hval).mpr h
  · obtain rfl := (prefixOf_of_type_ne htype).mp h
    exact trimPrefix_isPrefix _

/-- **The plan looks for the values that match**, and for those that overmatch. -/
theorem keyMatches_iff {text : MojDbText} {c : WhereClause} {val : MojObject}
    (hval : val.isDefined = true) :
    c.KeyMatches text val ↔ c.Matches text val ∨ c.Overmatches text val := by
  by_cases hpre : c.lowerOp = .opPrefix
  · have hupper : c.UpperMatches text val := by
      have hnone : c.upperOp = .opNone := by
        by_contra hne
        rcases c.valid.combination hne with h | h | h <;> simp [hpre] at h
      simp [UpperMatches, hnone]
    have hmatch : c.Matches text val ↔ ∃ alt ∈ c.lowerOperands text, PrefixOf alt val := by
      simp [Matches, hupper, LowerMatches, hpre]
    rw [KeyMatches, if_pos hpre]
    constructor
    · rintro ⟨alt, halt, hbytes⟩
      by_cases hm : c.Matches text val
      · exact .inl hm
      refine .inr ⟨hpre, hm, alt, halt, fun htype => hm ?_, hbytes⟩
      obtain ⟨p, rfl⟩ : ∃ p, alt = .string p := by
        cases alt <;> simp [MojObject.type] at htype
        exact ⟨_, rfl⟩
      exact hmatch.mpr ⟨_, halt, (trimPrefix_string_prefix_iff hval).mp hbytes⟩
    · rintro (hm | ⟨-, -, alt, halt, -, hbytes⟩)
      · obtain ⟨alt, halt, hof⟩ := hmatch.mp hm
        exact ⟨alt, halt, trimPrefix_of_prefixOf hval hof⟩
      · exact ⟨alt, halt, hbytes⟩
  · simp [KeyMatches, hpre, Overmatches]

end WhereClause

end Db8
