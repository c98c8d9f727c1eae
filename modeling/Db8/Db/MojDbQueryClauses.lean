import Db8.Db.MojDbQuery

/-!
# Db.MojDbQueryClauses

Calls of `MojDbQuery::where` one after the other, and when their order does not matter.

* `setClause`          — what a call does to the clause of its property.
* `Clash`, `Mismatch`  — the two ways in which calls on one property get into each other's way.
* `error_of_trouble`   — a run is stopped only by what the calls hold, in whatever order.
* `addWheres_perm_iff` — every order of the calls has the same outcome.
-/

namespace Db8

open Lib

/-- The arguments of one call of `MojDbQuery::where`. -/
structure WhereCall where
  propName : MojString
  op : CompOp
  val : MojObject
  coll : Option MojDbCollationStrength

namespace WhereCall

/-- The operators and values `addClause` lets through. -/
def Accepted (call : WhereCall) : Prop :=
  call.op ≠ .opNone ∧ (call.val.isArray = true → call.op = .opEq ∨ call.op = .opPrefix ∨ call.op = .opSubString)

instance (call : WhereCall) : Decidable call.Accepted := inferInstanceAs (Decidable (_ ∧ _))

def IsUpper (call : WhereCall) : Prop := call.op = .opLessThan ∨ call.op = .opLessThanEq

def IsLower (call : WhereCall) : Prop := call.op = .opGreaterThan ∨ call.op = .opGreaterThanEq

/-- One call is an upper bound and the other a lower bound. -/
def Range (call call' : WhereCall) : Prop := call.IsUpper ∧ call'.IsLower ∨ call.IsLower ∧ call'.IsUpper

instance (call : WhereCall) : Decidable call.IsUpper := inferInstanceAs (Decidable (_ ∨ _))

instance (call : WhereCall) : Decidable call.IsLower := inferInstanceAs (Decidable (_ ∨ _))

instance (call call' : WhereCall) : Decidable (call.Range call') := inferInstanceAs (Decidable (_ ∨ _))

theorem Range.symm {call call' : WhereCall} (h : call.Range call') : call'.Range call := by
  cases h with
  | inl h => exact .inr ⟨h.2, h.1⟩
  | inr h => exact .inl ⟨h.2, h.1⟩

theorem IsUpper.not_isLower {call : WhereCall} (h : call.IsUpper) : ¬ call.IsLower := by
  unfold IsUpper at h
  unfold IsLower
  cases h with
  | inl h => simp [h]
  | inr h => simp [h]

/-- Of two calls in a range with the same third one, neither is in a range with the other. -/
theorem Range.not_range {call a b : WhereCall} (ha : call.Range a) (hb : call.Range b) : ¬ a.Range b := by
  have hcall : call.IsUpper → ¬ call.IsLower := IsUpper.not_isLower
  have hla : a.IsUpper → ¬ a.IsLower := IsUpper.not_isLower
  have hlb : b.IsUpper → ¬ b.IsLower := IsUpper.not_isLower
  unfold Range at *
  tauto

end WhereCall

namespace WhereClause

/-- The clause holds one bound and the call is the other one. -/
def Joins (c : WhereClause) (call : WhereCall) : Prop :=
  call.IsUpper ∧ c.upperOp = .opNone ∧ (c.lowerOp = .opGreaterThan ∨ c.lowerOp = .opGreaterThanEq) ∨
    call.IsLower ∧ c.lowerOp = .opNone

/-- `WhereClause::collation` lets the call's collation through. -/
def Agrees (c : WhereClause) (call : WhereCall) : Prop := c.collation = none ∨ call.coll = c.collation

instance (c : WhereClause) (call : WhereCall) : Decidable (c.Joins call) := inferInstanceAs (Decidable (_ ∨ _))

instance (c : WhereClause) (call : WhereCall) : Decidable (c.Agrees call) := inferInstanceAs (Decidable (_ ∨ _))

theorem Agrees.mergeCollation_eq {c : WhereClause} {call : WhereCall} (h : c.Agrees call) :
    mergeCollation c.collation call.coll = .ok call.coll := by
  refine if_neg fun hne => ?_
  cases h with
  | inl hnone => simp [hnone] at hne
  | inr heq => exact hne.2 heq

theorem mergeCollation_of_not_agrees {c : WhereClause} {call : WhereCall} (h : ¬ c.Agrees call) :
    mergeCollation c.collation call.coll = .error .dbInvalidQueryCollationMismatch := by
  obtain ⟨hsome, hne⟩ := not_or.mp h
  exact if_pos ⟨Option.isSome_iff_ne_none.mpr hsome, hne⟩

end WhereClause

namespace MojDbQuery

/-! ## The clause of one property -/

/-- `addClause` on the clause its property has, if any. -/
def setClause (clause : Option WhereClause) (call : WhereCall) : Except MojErr WhereClause :=
  if h : call.Accepted then
    match clause with
    | none => .ok (createClause call.op call.val call.coll h.1 h.2)
    | some c => updateClause c call.op call.val call.coll h.2
  else .error .dbInvalidQuery

def putClause (map : WhereMap) (propName : MojString) (c : WhereClause) : WhereMap :=
  match WhereMap.find map propName with
  | none => map ++ [(propName, c)]
  | some _ => map.map fun p => if p.1 = propName then (p.1, c) else p

theorem addClause_eq (map : WhereMap) (call : WhereCall) :
    addClause map call.propName call.op call.val call.coll =
      (setClause (WhereMap.find map call.propName) call).map (putClause map call.propName) := by
  unfold addClause setClause putClause
  by_cases hop : call.op = .opNone
  · rw [dif_pos hop, dif_neg fun h => h.1 hop]
    rfl
  rw [dif_neg hop]
  by_cases harr : call.val.isArray = true ∧ ¬ (call.op = .opEq ∨ call.op = .opPrefix ∨ call.op = .opSubString)
  · rw [dif_pos harr, dif_neg fun h => harr.2 (h.2 harr.1)]
    rfl
  rw [dif_neg harr, dif_pos ⟨hop, fun h => not_not.mp (not_and.mp harr h)⟩]
  cases WhereMap.find map call.propName with
  | none => rfl
  | some c =>
    change (updateClause c call.op call.val call.coll _ >>= _) = (updateClause c call.op call.val call.coll _).map _
    cases updateClause c call.op call.val call.coll _ <;> rfl

theorem find_append (map : WhereMap) (propName : MojString) (c : WhereClause) (key : MojString)
    (h : WhereMap.find map propName = none) :
    WhereMap.find (map ++ [(propName, c)]) key = if propName = key then some c else WhereMap.find map key := by
  induction map with
  | nil => rfl
  | cons p map ih =>
    rw [WhereMap.find] at h
    split_ifs at h with hp
    rw [List.cons_append, WhereMap.find, WhereMap.find, ih h]
    by_cases hkey : propName = key
    · subst hkey
      rw [if_neg hp, if_pos rfl, if_pos rfl]
    · rw [if_neg hkey, if_neg hkey]

theorem find_replace (map : WhereMap) (propName : MojString) (c : WhereClause) (key : MojString) :
    WhereMap.find (map.map fun p => if p.1 = propName then (p.1, c) else p) key =
      if propName = key then (WhereMap.find map key).map fun _ => c else WhereMap.find map key := by
  induction map with
  | nil => simp [WhereMap.find]
  | cons p map ih =>
    rw [List.map_cons, WhereMap.find, WhereMap.find, ih]
    by_cases hp : p.1 = propName
    · rw [if_pos hp, hp]
      by_cases hkey : propName = key <;> simp [hkey]
    · rw [if_neg hp]
      by_cases hkey : propName = key
      · subst hkey
        simp [hp]
      · simp [hkey]

theorem find_putClause (map : WhereMap) (propName : MojString) (c : WhereClause) (key : MojString) :
    WhereMap.find (putClause map propName c) key = if propName = key then some c else WhereMap.find map key := by
  unfold putClause
  cases hfind : WhereMap.find map propName with
  | none => exact find_append map propName c key hfind
  | some d =>
    change WhereMap.find (map.map fun p => if p.1 = propName then (p.1, c) else p) key = _
    rw [find_replace]
    by_cases hkey : propName = key
    · rw [if_pos hkey, if_pos hkey, ← hkey, hfind]
      rfl
    · rw [if_neg hkey, if_neg hkey]

/-- The clause holds what the call says, in the part the call is about. -/
structure Holds (c : WhereClause) (call : WhereCall) : Prop where
  upper : call.IsUpper → c.upperOp = call.op ∧ c.upperVal = call.val
  lower : ¬ call.IsUpper → c.lowerOp = call.op ∧ c.lowerVal = call.val
  collation : c.collation = call.coll

theorem createClause_holds {call : WhereCall} (h : call.Accepted) :
    Holds (createClause call.op call.val call.coll h.1 h.2) call := by
  unfold createClause
  by_cases hupper : call.op = .opLessThan ∨ call.op = .opLessThanEq
  · rw [dif_pos hupper]
    exact ⟨fun _ => ⟨rfl, rfl⟩, fun hnot => absurd hupper hnot, rfl⟩
  · rw [dif_neg hupper]
    exact ⟨fun hnot => absurd hnot hupper, fun _ => ⟨rfl, rfl⟩, rfl⟩

/-- A new clause has one part only. -/
theorem createClause_joins {call : WhereCall} (h : call.Accepted) (call' : WhereCall) :
    (createClause call.op call.val call.coll h.1 h.2).Joins call' ↔ call.Range call' := by
  have hop := h.1
  unfold createClause WhereClause.Joins WhereCall.Range
  by_cases hupper : call.op = .opLessThan ∨ call.op = .opLessThanEq
  · rw [dif_pos hupper]
    have hnot := WhereCall.IsUpper.not_isLower hupper
    simp only [hnot, false_and, or_false]
    have hu : call.IsUpper := hupper
    simp [hu]
  · rw [dif_neg hupper]
    have hu : ¬ call.IsUpper := hupper
    simp [hu, hop, and_comm, WhereCall.IsLower]

theorem setClause_none {call : WhereCall} (h : call.Accepted) :
    setClause none call = .ok (createClause call.op call.val call.coll h.1 h.2) := dif_pos h

theorem setClause_of_not_accepted {clause : Option WhereClause} {call : WhereCall} (h : ¬ call.Accepted) :
    setClause clause call = .error .dbInvalidQuery := dif_neg h

/-- A second call needs the part the clause does not have yet, and a collation that agrees. -/
theorem setClause_some {call : WhereCall} (h : call.Accepted) (c : WhereClause) :
    (¬ c.Joins call ∧ setClause (some c) call = .error .dbInvalidQueryOpCombo) ∨
      (c.Joins call ∧ ¬ c.Agrees call ∧ setClause (some c) call = .error .dbInvalidQueryCollationMismatch) ∨
      (c.Joins call ∧ c.Agrees call ∧ ∃ c', setClause (some c) call = .ok c' ∧ Holds c' call ∧
        (call.IsUpper → c'.lowerOp = c.lowerOp ∧ c'.lowerVal = c.lowerVal) ∧
        (call.IsLower → c'.upperOp = c.upperOp ∧ c'.upperVal = c.upperVal)) := by
  have hset : setClause (some c) call = updateClause c call.op call.val call.coll h.2 := dif_pos h
  rw [hset]
  unfold updateClause
  by_cases hupper : call.op = .opLessThan ∨ call.op = .opLessThanEq
  · rw [dif_pos hupper]
    have hnot : ¬ call.IsLower := WhereCall.IsUpper.not_isLower hupper
    have hjoins : c.Joins call ↔ c.upperOp = .opNone ∧ (c.lowerOp = .opGreaterThan ∨ c.lowerOp = .opGreaterThanEq) := by
      refine ⟨fun hj => ?_, fun hj => .inl ⟨hupper, hj⟩⟩
      cases hj with
      | inl hj => exact hj.2
      | inr hj => exact absurd hj.1 hnot
    by_cases hlower : c.lowerOp = .opNone ∨ c.lowerOp = .opGreaterThan ∨ c.lowerOp = .opGreaterThanEq
    · rw [dif_pos hlower]
      by_cases hnone : c.upperOp = .opNone
      · rw [if_neg (not_not.mpr hnone)]
        have hj : c.Joins call := by
          refine hjoins.mpr ⟨hnone, hlower.resolve_left fun hl => ?_⟩
          cases c.valid.some_op with
          | inl hop => exact hop hl
          | inr hop => exact hop hnone
        by_cases hagrees : c.Agrees call
        · refine .inr (.inr ⟨hj, hagrees, ?_⟩)
          rw [hagrees.mergeCollation_eq]
          exact ⟨_, rfl, ⟨fun _ => ⟨rfl, rfl⟩, fun hnu => absurd hupper hnu, rfl⟩, fun _ => ⟨rfl, rfl⟩,
            fun hl => absurd hl hnot⟩
        · refine .inr (.inl ⟨hj, hagrees, ?_⟩)
          rw [WhereClause.mergeCollation_of_not_agrees hagrees]
          rfl
      · rw [if_pos hnone]
        exact .inl ⟨fun hj => hnone (hjoins.mp hj).1, rfl⟩
    · rw [dif_neg hlower]
      exact .inl ⟨fun hj => hlower (.inr (hjoins.mp hj).2), rfl⟩
  · rw [dif_neg hupper]
    by_cases hlower : call.op = .opGreaterThan ∨ call.op = .opGreaterThanEq
    · have hjoins : c.Joins call ↔ c.lowerOp = .opNone := by
        refine ⟨fun hj => ?_, fun hj => .inr ⟨hlower, hj⟩⟩
        cases hj with
        | inl hj => exact absurd hj.1 hupper
        | inr hj => exact hj.2
      have hop : ¬ (c.upperOp ≠ .opNone ∧ c.upperOp ≠ .opLessThan ∧ c.upperOp ≠ .opLessThanEq) := by
        have hlt := c.valid.upper_lt
        tauto
      rw [dif_pos hlower, if_neg hop]
      by_cases hnone : c.lowerOp = .opNone
      · rw [if_neg (not_not.mpr hnone)]
        by_cases hagrees : c.Agrees call
        · refine .inr (.inr ⟨hjoins.mpr hnone, hagrees, ?_⟩)
          rw [hagrees.mergeCollation_eq]
          exact ⟨_, rfl, ⟨fun hu => absurd hu hupper, fun _ => ⟨rfl, rfl⟩, rfl⟩, fun hu => absurd hu hupper,
            fun _ => ⟨rfl, rfl⟩⟩
        · refine .inr (.inl ⟨hjoins.mpr hnone, hagrees, ?_⟩)
          rw [WhereClause.mergeCollation_of_not_agrees hagrees]
          rfl
      · rw [if_pos hnone]
        exact .inl ⟨fun hj => hnone (hjoins.mp hj), rfl⟩
    · rw [dif_neg hlower]
      refine .inl ⟨fun hj => ?_, rfl⟩
      cases hj with
      | inl hj => exact hupper hj.1
      | inr hj => exact hlower hj.1

/-- What a call that returns found, and what it leaves for the calls behind it. -/
inductive Sets (call : WhereCall) (c : WhereClause) : Option WhereClause → Prop where
  | create : (∀ call', c.Joins call' ↔ call.Range call') → Sets call c none
  | update {d : WhereClause} : d.Joins call → d.Agrees call → (∀ call', ¬ c.Joins call') →
      (call.IsUpper → c.lowerOp = d.lowerOp ∧ c.lowerVal = d.lowerVal) →
      (call.IsLower → c.upperOp = d.upperOp ∧ c.upperVal = d.upperVal) → Sets call c (some d)

theorem setClause_ok {clause : Option WhereClause} {call : WhereCall} {c : WhereClause}
    (h : setClause clause call = .ok c) : call.Accepted ∧ Holds c call ∧ Sets call c clause := by
  by_cases hacc : call.Accepted
  · refine ⟨hacc, ?_⟩
    cases clause with
    | none =>
      rw [setClause_none hacc] at h
      cases h
      exact ⟨createClause_holds hacc, .create (createClause_joins hacc)⟩
    | some d =>
      obtain ⟨-, he⟩ | ⟨-, -, he⟩ | ⟨hjoins, hagrees, c', he, hholds, hupper, hlower⟩ := setClause_some hacc d
      · rw [he] at h
        cases h
      · rw [he] at h
        cases h
      · obtain rfl : c' = c := Except.ok.inj (he.symm.trans h)
        refine ⟨hholds, .update hjoins hagrees (fun call' hnext => ?_) hupper hlower⟩
        have hnone : c'.lowerOp ≠ .opNone ∧ c'.upperOp ≠ .opNone := by
          cases hjoins with
          | inl hj =>
            rw [(hupper hj.1).1, (hholds.upper hj.1).1]
            refine ⟨fun he => ?_, hacc.1⟩
            rw [he] at hj
            simp at hj
          | inr hj =>
            have hnot : ¬ call.IsUpper := fun hu => hu.not_isLower hj.1
            rw [(hlower hj.1).1, (hholds.lower hnot).1]
            exact ⟨hacc.1, fun he => d.valid.some_op.elim (fun h => h hj.2) fun h => h he⟩
        cases hnext with
        | inl hn => exact hnone.2 hn.2.1
        | inr hn => exact hnone.1 hn.2
  · rw [setClause_of_not_accepted hacc] at h
    cases h

/-! ## Calls that get into each other's way -/

/-- Some order of the calls, given to a property with this clause, finds a part that is taken or does not go
with the other one. -/
def ClashAt (clause : Option WhereClause) (calls : List WhereCall) : Prop :=
  match clause with
  | none => ¬ calls.Pairwise WhereCall.Range
  | some c => (∃ call ∈ calls, ¬ c.Joins call) ∨ 1 < calls.length ∧ ∃ call ∈ calls, c.Agrees call

/-- Some order of the calls finds another collation. -/
def MismatchAt (clause : Option WhereClause) (calls : List WhereCall) : Prop :=
  match clause with
  | none => ∃ call ∈ calls, ∃ call' ∈ calls, call.Range call' ∧ call.coll ≠ call'.coll
  | some c => ∃ call ∈ calls, c.Joins call ∧ ¬ c.Agrees call

/-- Two bounds name two collations, so that either order finds the other one. -/
def StrictAt (clause : Option WhereClause) (calls : List WhereCall) : Prop :=
  match clause with
  | none => ∃ call ∈ calls, ∃ call' ∈ calls,
      call.Range call' ∧ call.coll ≠ none ∧ call'.coll ≠ none ∧ call.coll ≠ call'.coll
  | some c => ∃ call ∈ calls, c.Joins call ∧ ¬ c.Agrees call

/-- This order of the calls finds another collation. -/
def LateAt (clause : Option WhereClause) (calls : List WhereCall) : Prop :=
  match clause with
  | none => ¬ calls.Pairwise fun call call' => call.Range call' → call.coll = none ∨ call.coll = call'.coll
  | some c => ∃ call ∈ calls, c.Joins call ∧ ¬ c.Agrees call

theorem mismatchAt_of_lateAt {clause : Option WhereClause} {calls : List WhereCall} (h : LateAt clause calls) :
    MismatchAt clause calls := by
  cases clause with
  | none =>
    by_contra hnot
    refine h (List.pairwise_of_forall_mem_list fun a ha b hb hrange => .inr ?_)
    by_contra hne
    exact hnot ⟨a, ha, b, hb, hrange, hne⟩
  | some c => exact h

theorem setClause_error {clause : Option WhereClause} {call : WhereCall} {err : MojErr}
    (h : setClause clause call = .error err) (calls : List WhereCall) :
    (err = .dbInvalidQuery ∧ ¬ call.Accepted) ∨
      (err = .dbInvalidQueryOpCombo ∧ call.Accepted ∧ ClashAt clause (call :: calls)) ∨
      (err = .dbInvalidQueryCollationMismatch ∧ call.Accepted ∧ LateAt clause (call :: calls)) := by
  by_cases hacc : call.Accepted
  · cases clause with
    | none =>
      rw [setClause_none hacc] at h
      cases h
    | some d =>
      obtain ⟨hjoins, he⟩ | ⟨hjoins, hagrees, he⟩ | ⟨-, -, c', he, -⟩ := setClause_some hacc d
      · rw [he] at h
        cases h
        exact .inr (.inl ⟨rfl, hacc, .inl ⟨call, List.mem_cons_self, hjoins⟩⟩)
      · rw [he] at h
        cases h
        exact .inr (.inr ⟨rfl, hacc, call, List.mem_cons_self, hjoins, hagrees⟩)
      · rw [he] at h
        cases h
  · rw [setClause_of_not_accepted hacc] at h
    cases h
    exact .inl ⟨rfl, hacc⟩

section

variable {clause : Option WhereClause} {call : WhereCall} {c : WhereClause} {calls : List WhereCall}

theorem Sets.clashAt_cons (hsets : Sets call c clause) (h : ClashAt (some c) calls) : ClashAt clause (call :: calls) := by
  cases hsets with
  | create hjoins =>
    intro hpair
    rw [List.pairwise_cons] at hpair
    cases h with
    | inl h =>
      obtain ⟨call', hmem, hnot⟩ := h
      exact hnot ((hjoins call').mpr (hpair.1 call' hmem))
    | inr h =>
      cases calls with
      | nil => exact absurd h.1 (by decide)
      | cons a rest =>
        cases rest with
        | nil => exact absurd h.1 (by simp)
        | cons b rest =>
          have ha := hpair.1 a List.mem_cons_self
          have hb := hpair.1 b (.tail _ List.mem_cons_self)
          exact ha.not_range hb ((List.pairwise_cons.mp hpair.2).1 b List.mem_cons_self)
  | update hjoins hagrees hfull _ _ =>
    refine .inr ⟨?_, call, List.mem_cons_self, hagrees⟩
    cases calls with
    | nil =>
      cases h with
      | inl h => exact absurd h (by simp)
      | inr h => exact absurd h.1 (by decide)
    | cons a rest => simp

theorem Sets.lateAt_cons (hsets : Sets call c clause) (hholds : Holds c call) (h : MismatchAt (some c) calls) :
    LateAt clause (call :: calls) := by
  obtain ⟨call', hmem, hjoin, hagrees⟩ := h
  cases hsets with
  | create hjoins =>
    intro hpair
    rw [List.pairwise_cons] at hpair
    rw [WhereClause.Agrees, hholds.collation] at hagrees
    exact hagrees ((hpair.1 call' hmem ((hjoins call').mp hjoin)).imp_right Eq.symm)
  | update _ _ hfull _ _ => exact absurd hjoin (hfull call')

/-- Calls that clash still do behind the first of them, or they do not agree with it. -/
theorem Sets.of_clashAt_cons (hsets : Sets call c clause) (h : ClashAt clause (call :: calls)) :
    ClashAt (some c) calls ∨ MismatchAt (some c) calls := by
  cases hsets with
  | create hjoins =>
    by_cases hall : ∀ call' ∈ calls, c.Joins call'
    · have hnot : ¬ calls.Pairwise WhereCall.Range := by
        intro hpair
        refine h (List.pairwise_cons.mpr ⟨fun call' hmem => (hjoins call').mp (hall call' hmem), hpair⟩)
      cases calls with
      | nil => exact absurd .nil hnot
      | cons a rest =>
        cases rest with
        | nil => exact absurd (List.pairwise_singleton _ _) hnot
        | cons b rest =>
          by_cases hagrees : c.Agrees a
          · exact .inl (.inr ⟨by simp, a, List.mem_cons_self, hagrees⟩)
          · exact .inr ⟨a, List.mem_cons_self, hall a List.mem_cons_self, hagrees⟩
    · push Not at hall
      exact .inl (.inl hall)
  | update hjoins hagrees hfull _ _ =>
    cases calls with
    | nil =>
      cases h with
      | inl h =>
        obtain ⟨call', hmem, hnot⟩ := h
        obtain rfl := List.mem_singleton.mp hmem
        exact absurd hjoins hnot
      | inr h => exact absurd h.1 (by simp)
    | cons a rest => exact .inl (.inl ⟨a, List.mem_cons_self, hfull a⟩)

theorem Sets.of_strictAt_cons (hsets : Sets call c clause) (hholds : Holds c call) (h : StrictAt clause (call :: calls)) :
    ClashAt (some c) calls ∨ MismatchAt (some c) calls := by
  cases hsets with
  | create hjoins =>
    obtain ⟨a, ha, b, hb, hrange, hacoll, hbcoll, hne⟩ := h
    have hlater : ∀ other ∈ calls, call.Range other → call.coll ≠ none → other.coll ≠ call.coll →
        MismatchAt (some c) calls := by
      intro other hmem hrange hsome hother
      refine ⟨other, hmem, (hjoins other).mpr hrange, fun hagrees => ?_⟩
      rw [WhereClause.Agrees, hholds.collation] at hagrees
      exact hagrees.elim hsome hother
    cases List.mem_cons.mp ha with
    | inl he =>
      subst he
      cases List.mem_cons.mp hb with
      | inl he => exact absurd (congrArg WhereCall.coll he).symm hne
      | inr hmem => exact .inr (hlater b hmem hrange hacoll hne.symm)
    | inr hmem =>
      cases List.mem_cons.mp hb with
      | inl he =>
        subst he
        exact .inr (hlater a hmem hrange.symm hbcoll hne)
      | inr hmem' =>
        by_cases hcall : call.Range a
        · exact .inl (.inl ⟨b, hmem', fun hb => hcall.not_range ((hjoins b).mp hb) hrange⟩)
        · exact .inl (.inl ⟨a, hmem, fun ha => hcall ((hjoins a).mp ha)⟩)
  | update hjoins hagrees hfull _ _ =>
    obtain ⟨a, ha, hjoin, hnot⟩ := h
    cases List.mem_cons.mp ha with
    | inl he =>
      subst he
      exact absurd hagrees hnot
    | inr ha => exact .inl (.inl ⟨a, ha, hfull a⟩)

end

/-! ## Runs -/

def clause (query : MojDbQuery) (propName : MojString) : Option WhereClause :=
  WhereMap.find query.whereClauses propName

/-- `MojDbQuery::where` for one call after the other. -/
def addWheres (query : MojDbQuery) (calls : List WhereCall) : Except MojErr MojDbQuery :=
  calls.foldlM (fun query call => query.addWhere call.propName call.op call.val call.coll) query

/-- Everything of a query but its where clauses. -/
def others (query : MojDbQuery) : MojDbQuery := { query with whereClauses := [], where_nodup := .nil }

/-- The two queries have the same bounds and collation for each property, and the same options. -/
structure SameAs (query query' : MojDbQuery) : Prop where
  clause : ∀ propName, query.clause propName = query'.clause propName
  others : query.others = query'.others

theorem SameAs.refl (query : MojDbQuery) : query.SameAs query := ⟨fun _ => rfl, rfl⟩

theorem SameAs.symm {query query' : MojDbQuery} (h : query.SameAs query') : query'.SameAs query :=
  ⟨fun p => (h.clause p).symm, h.others.symm⟩

theorem SameAs.trans {query query' query'' : MojDbQuery} (h : query.SameAs query') (h' : query'.SameAs query'') :
    query.SameAs query'' := ⟨fun p => (h.clause p).trans (h'.clause p), h.others.trans h'.others⟩

/-- The same error, or the same query. -/
def SameOutcome : Except MojErr MojDbQuery → Except MojErr MojDbQuery → Prop
  | .error err, .error err' => err = err'
  | .ok query, .ok query' => query.SameAs query'
  | _, _ => False

/-- The query with the clause of one property set. -/
structure Puts (query : MojDbQuery) (propName : MojString) (c : WhereClause) (query' : MojDbQuery) : Prop where
  clause : ∀ key, query'.clause key = if propName = key then some c else query.clause key
  others : query'.others = query.others

theorem addWhere_error {query : MojDbQuery} {call : WhereCall} {err : MojErr}
    (h : setClause (query.clause call.propName) call = .error err) :
    query.addWhere call.propName call.op call.val call.coll = .error err := by
  have hadd := addClause_eq query.whereClauses call
  rw [← clause, h] at hadd
  unfold addWhere
  split
  · rename_i map hmap
    rw [hmap] at hadd
    cases hadd
  · rename_i err' herr
    rw [herr] at hadd
    cases hadd
    rfl

theorem addWhere_ok {query : MojDbQuery} {call : WhereCall} {c : WhereClause}
    (h : setClause (query.clause call.propName) call = .ok c) :
    ∃ query', query.addWhere call.propName call.op call.val call.coll = .ok query' ∧ query.Puts call.propName c query' := by
  have hadd := addClause_eq query.whereClauses call
  rw [← clause, h] at hadd
  unfold addWhere
  split
  · rename_i map hmap
    rw [hmap] at hadd
    cases hadd
    exact ⟨_, rfl, ⟨fun key => find_putClause _ _ _ _, rfl⟩⟩
  · rename_i err' herr
    rw [herr] at hadd
    cases hadd

theorem addWheres_cons {query query' : MojDbQuery} {call : WhereCall} (calls : List WhereCall)
    (h : query.addWhere call.propName call.op call.val call.coll = .ok query') :
    query.addWheres (call :: calls) = query'.addWheres calls := by
  rw [addWheres, List.foldlM_cons, h]
  rfl

/-- A run goes on behind its first call, or that call stops it. -/
theorem addWheres_cases (query : MojDbQuery) (call : WhereCall) (calls : List WhereCall) :
    (∃ err, setClause (query.clause call.propName) call = .error err ∧
      query.addWheres (call :: calls) = .error err) ∨
    (∃ c query', setClause (query.clause call.propName) call = .ok c ∧ query.Puts call.propName c query' ∧
      query.addWheres (call :: calls) = query'.addWheres calls) := by
  cases hset : setClause (query.clause call.propName) call with
  | error err =>
    refine .inl ⟨err, rfl, ?_⟩
    rw [addWheres, List.foldlM_cons, addWhere_error hset]
    rfl
  | ok c =>
    obtain ⟨query', hadd, hputs⟩ := addWhere_ok hset
    exact .inr ⟨c, query', rfl, hputs, addWheres_cons calls hadd⟩

/-- The accepted calls on one property. -/
def callsOn (propName : MojString) (calls : List WhereCall) : List WhereCall :=
  calls.filter fun call => call.Accepted ∧ call.propName = propName

/-- What is said of a clause and the calls on its property holds for some property. -/
def Somewhere (T : Option WhereClause → List WhereCall → Prop) (query : MojDbQuery) (calls : List WhereCall) : Prop :=
  ∃ propName, T (query.clause propName) (callsOn propName calls)

section

variable {T : Option WhereClause → List WhereCall → Prop} {query query' : MojDbQuery} {call : WhereCall}
  {calls calls' : List WhereCall}

theorem somewhere_cons (hacc : call.Accepted) : Somewhere T query (call :: calls) ↔
    T (query.clause call.propName) (call :: callsOn call.propName calls) ∨
      ∃ propName, call.propName ≠ propName ∧ T (query.clause propName) (callsOn propName calls) := by
  have hon : ∀ propName, callsOn propName (call :: calls) =
      if call.propName = propName then call :: callsOn propName calls else callsOn propName calls := by
    intro propName
    rw [callsOn, List.filter_cons]
    by_cases hname : call.propName = propName <;> simp [hname, hacc, callsOn]
  refine ⟨?_, ?_⟩
  · intro h
    obtain ⟨propName, h⟩ := h
    rw [hon] at h
    by_cases hname : call.propName = propName
    · subst hname
      rw [if_pos rfl] at h
      exact .inl h
    · rw [if_neg hname] at h
      exact .inr ⟨propName, hname, h⟩
  · intro h
    cases h with
    | inl h => exact ⟨call.propName, by rwa [hon, if_pos rfl]⟩
    | inr h =>
      obtain ⟨propName, hname, h⟩ := h
      exact ⟨propName, by rwa [hon, if_neg hname]⟩

theorem Puts.somewhere {c : WhereClause} (h : query.Puts call.propName c query') : Somewhere T query' calls ↔
    T (some c) (callsOn call.propName calls) ∨
      ∃ propName, call.propName ≠ propName ∧ T (query.clause propName) (callsOn propName calls) := by
  refine ⟨?_, ?_⟩
  · intro hT
    obtain ⟨propName, hT⟩ := hT
    rw [h.clause] at hT
    by_cases hname : call.propName = propName
    · subst hname
      rw [if_pos rfl] at hT
      exact .inl hT
    · rw [if_neg hname] at hT
      exact .inr ⟨propName, hname, hT⟩
  · intro hT
    cases hT with
    | inl hT => exact ⟨call.propName, by rwa [h.clause, if_pos rfl]⟩
    | inr hT =>
      obtain ⟨propName, hname, hT⟩ := hT
      exact ⟨propName, by rwa [h.clause, if_neg hname]⟩

theorem callsOn_perm (h : calls.Perm calls') (propName : MojString) :
    (callsOn propName calls).Perm (callsOn propName calls') := h.filter _

theorem Somewhere.perm (hT : ∀ clause as bs, as.Perm bs → T clause as → T clause bs) (h : calls.Perm calls')
    (hs : Somewhere T query calls) : Somewhere T query calls' := by
  obtain ⟨propName, hs⟩ := hs
  exact ⟨propName, hT _ _ _ (callsOn_perm h propName) hs⟩

end

theorem clashAt_perm (clause : Option WhereClause) (as bs : List WhereCall) (h : as.Perm bs) (hT : ClashAt clause as) :
    ClashAt clause bs := by
  cases clause with
  | none => exact fun hpair => hT ((h.pairwise_iff fun hr => hr.symm).mpr hpair)
  | some c =>
    cases hT with
    | inl hT =>
      obtain ⟨call, hmem, hnot⟩ := hT
      exact .inl ⟨call, h.mem_iff.mp hmem, hnot⟩
    | inr hT =>
      obtain ⟨hlen, call, hmem, hagrees⟩ := hT
      exact .inr ⟨h.length_eq ▸ hlen, call, h.mem_iff.mp hmem, hagrees⟩

theorem mismatchAt_perm (clause : Option WhereClause) (as bs : List WhereCall) (h : as.Perm bs)
    (hT : MismatchAt clause as) : MismatchAt clause bs := by
  cases clause with
  | none =>
    obtain ⟨a, ha, b, hb, hne⟩ := hT
    exact ⟨a, h.mem_iff.mp ha, b, h.mem_iff.mp hb, hne⟩
  | some c =>
    obtain ⟨a, ha, hne⟩ := hT
    exact ⟨a, h.mem_iff.mp ha, hne⟩

theorem strictAt_perm (clause : Option WhereClause) (as bs : List WhereCall) (h : as.Perm bs)
    (hT : StrictAt clause as) : StrictAt clause bs := by
  cases clause with
  | none =>
    obtain ⟨a, ha, b, hb, hne⟩ := hT
    exact ⟨a, h.mem_iff.mp ha, b, h.mem_iff.mp hb, hne⟩
  | some c =>
    obtain ⟨a, ha, hne⟩ := hT
    exact ⟨a, h.mem_iff.mp ha, hne⟩

/-! ## What stops a run -/

/-- Induction on the calls: what a call meets behind others is there in the whole list. -/
theorem error_of_trouble {query : MojDbQuery} {calls : List WhereCall} {err : MojErr}
    (h : query.addWheres calls = .error err) :
    (err = .dbInvalidQuery ∧ ∃ call ∈ calls, ¬ call.Accepted) ∨
      (err = .dbInvalidQueryOpCombo ∧ Somewhere ClashAt query calls) ∨
      (err = .dbInvalidQueryCollationMismatch ∧ Somewhere LateAt query calls) := by
  induction calls generalizing query with
  | nil => cases h
  | cons call calls ih =>
    obtain ⟨err', hset, hrun⟩ | ⟨c, query', hset, hputs, hrun⟩ := addWheres_cases query call calls
    · obtain rfl : err' = err := Except.error.inj (hrun.symm.trans h)
      obtain ⟨he, hacc⟩ | ⟨he, hacc, hclash⟩ | ⟨he, hacc, hmis⟩ := setClause_error hset (callsOn call.propName calls)
      · exact .inl ⟨he, call, List.mem_cons_self, hacc⟩
      · exact .inr (.inl ⟨he, (somewhere_cons hacc).mpr (.inl hclash)⟩)
      · exact .inr (.inr ⟨he, (somewhere_cons hacc).mpr (.inl hmis)⟩)
    · obtain ⟨hacc, hholds, hsets⟩ := setClause_ok hset
      obtain ⟨he, call', hmem, hnot⟩ | ⟨he, hclash⟩ | ⟨he, hmis⟩ := ih (hrun.symm.trans h)
      · exact .inl ⟨he, call', .tail _ hmem, hnot⟩
      · exact .inr (.inl ⟨he, (somewhere_cons hacc).mpr ((hputs.somewhere.mp hclash).imp_left hsets.clashAt_cons)⟩)
      · exact .inr (.inr ⟨he, (somewhere_cons hacc).mpr
          ((hputs.somewhere.mp hmis).imp_left (hsets.lateAt_cons hholds))⟩)

theorem not_clashAt_nil (clause : Option WhereClause) : ¬ ClashAt clause [] := by
  cases clause <;> simp [ClashAt]

theorem not_strictAt_nil (clause : Option WhereClause) : ¬ StrictAt clause [] := by
  cases clause <;> simp [StrictAt]

theorem ok_of_run {query query' : MojDbQuery} {calls : List WhereCall} (h : query.addWheres calls = .ok query') :
    (∀ call ∈ calls, call.Accepted) ∧ ¬ Somewhere ClashAt query calls ∧ ¬ Somewhere StrictAt query calls := by
  induction calls generalizing query with
  | nil =>
    exact ⟨List.forall_mem_nil _, fun ⟨propName, hclash⟩ => not_clashAt_nil _ hclash,
      fun ⟨propName, hstrict⟩ => not_strictAt_nil _ hstrict⟩
  | cons call calls ih =>
    obtain ⟨err, -, hrun⟩ | ⟨c, query₁, hset, hputs, hrun⟩ := addWheres_cases query call calls
    · rw [hrun] at h
      cases h
    · obtain ⟨hacc, hholds, hsets⟩ := setClause_ok hset
      obtain ⟨hall, hclash, hstrict⟩ := ih (hrun.symm.trans h)
      rw [hputs.somewhere] at hclash hstrict
      obtain ⟨hclash, hclash'⟩ := not_or.mp hclash
      obtain ⟨hstrict, hstrict'⟩ := not_or.mp hstrict
      refine ⟨List.forall_mem_cons.mpr ⟨hacc, hall⟩, fun hs => ?_, fun hs => ?_⟩
      · cases (somewhere_cons hacc).mp hs with
        | inl hs => exact (hsets.of_clashAt_cons hs).elim hclash hstrict
        | inr hs => exact hclash' hs
      · cases (somewhere_cons hacc).mp hs with
        | inl hs => exact (hsets.of_strictAt_cons hholds hs).elim hclash hstrict
        | inr hs => exact hstrict' hs

/-! ## Two orders -/

/-- Nothing in the calls stops a run of them, in any order. -/
structure Clear (query : MojDbQuery) (calls : List WhereCall) : Prop where
  accepted : ∀ call ∈ calls, call.Accepted
  clash : ¬ Somewhere ClashAt query calls
  mismatch : ¬ Somewhere MismatchAt query calls

theorem Clear.perm {query : MojDbQuery} {calls calls' : List WhereCall} (h : query.Clear calls)
    (hperm : calls.Perm calls') : query.Clear calls' where
  accepted := fun call hmem => h.accepted call (hperm.mem_iff.mpr hmem)
  clash := fun hs => h.clash (hs.perm clashAt_perm hperm.symm)
  mismatch := fun hs => h.mismatch (hs.perm mismatchAt_perm hperm.symm)

theorem Clear.cons {query : MojDbQuery} {call : WhereCall} {calls : List WhereCall} (h : query.Clear (call :: calls)) :
    ∃ c query', setClause (query.clause call.propName) call = .ok c ∧ query.Puts call.propName c query' ∧
      query.addWheres (call :: calls) = query'.addWheres calls ∧ query'.Clear calls := by
  have hacc := h.accepted call List.mem_cons_self
  obtain ⟨err, hset, -⟩ | ⟨c, query', hset, hputs, hrun⟩ := addWheres_cases query call calls
  · obtain ⟨-, hnot⟩ | ⟨-, -, hclash⟩ | ⟨-, -, hmis⟩ := setClause_error hset (callsOn call.propName calls)
    · exact absurd hacc hnot
    · exact absurd ((somewhere_cons hacc).mpr (.inl hclash)) h.clash
    · exact absurd ((somewhere_cons hacc).mpr (.inl (mismatchAt_of_lateAt hmis))) h.mismatch
  · obtain ⟨-, hholds, hsets⟩ := setClause_ok hset
    refine ⟨c, query', hset, hputs, hrun, ⟨fun call' hmem => h.accepted call' (.tail _ hmem), fun hs => ?_, fun hs => ?_⟩⟩
    · exact h.clash ((somewhere_cons hacc).mpr ((hputs.somewhere.mp hs).imp_left hsets.clashAt_cons))
    · exact h.mismatch ((somewhere_cons hacc).mpr ((hputs.somewhere.mp hs).imp_left fun hs =>
        mismatchAt_of_lateAt (hsets.lateAt_cons hholds hs)))

theorem SameOutcome.refl (outcome : Except MojErr MojDbQuery) : SameOutcome outcome outcome := by
  cases outcome with
  | error err => rfl
  | ok query => exact SameAs.refl query

theorem SameOutcome.symm {x y : Except MojErr MojDbQuery} (h : SameOutcome x y) : SameOutcome y x := by
  cases x <;> cases y
  · exact Eq.symm h
  · exact h
  · exact h
  · exact SameAs.symm h

theorem SameOutcome.trans {x y z : Except MojErr MojDbQuery} (h : SameOutcome x y) (h' : SameOutcome y z) :
    SameOutcome x z := by
  cases x <;> cases y <;> cases z <;> try exact h.elim
  · exact Eq.trans h h'
  · exact h'.elim
  · exact h'.elim
  · exact SameAs.trans h h'

theorem addWheres_congr {query query' : MojDbQuery} (h : query.SameAs query') (calls : List WhereCall) :
    SameOutcome (query.addWheres calls) (query'.addWheres calls) := by
  induction calls generalizing query query' with
  | nil => exact h
  | cons call calls ih =>
    obtain ⟨err, hset, hrun⟩ | ⟨c, query₁, hset, hputs, hrun⟩ := addWheres_cases query call calls <;>
    obtain ⟨err', hset', hrun'⟩ | ⟨c', query₁', hset', hputs', hrun'⟩ := addWheres_cases query' call calls <;>
    rw [← h.clause, hset] at hset' <;> cases hset' <;> rw [hrun, hrun']
    · exact SameOutcome.refl _
    · refine ih ⟨fun propName => ?_, ?_⟩
      · rw [hputs.clause, hputs'.clause, h.clause]
      · rw [hputs.others, hputs'.others, h.others]

/-- Two calls on one property make a range, on a property without a clause. -/
theorem Sets.range {first second : WhereCall} {clause : Option WhereClause} {c d : WhereClause}
    (hfirst : Sets first d clause) (hsecond : Sets second c (some d)) : clause = none ∧ first.Range second := by
  cases hsecond with
  | update hjoins _ _ _ _ =>
    cases hfirst with
    | create h => exact ⟨rfl, (h second).mp hjoins⟩
    | update _ _ hfull _ _ => exact absurd hjoins (hfull second)

/-- The clause of a range has what both of its calls say. -/
theorem Sets.holds {first second : WhereCall} {c d : WhereClause} (hfirst : Holds d first) (hsecond : Holds c second)
    (hsets : Sets second c (some d)) (hrange : first.Range second) (hcoll : first.coll = second.coll) : Holds c first := by
  cases hsets with
  | update _ _ _ hupper hlower =>
    cases hrange with
    | inl h =>
      obtain ⟨hop, hval⟩ := hlower h.2
      obtain ⟨hop', hval'⟩ := hfirst.upper h.1
      exact ⟨fun _ => ⟨hop.trans hop', hval.trans hval'⟩, fun hnot => absurd h.1 hnot, hsecond.collation.trans hcoll.symm⟩
    | inr h =>
      have hnot : ¬ first.IsUpper := fun hu => hu.not_isLower h.1
      obtain ⟨hop, hval⟩ := hupper h.2
      obtain ⟨hop', hval'⟩ := hfirst.lower hnot
      exact ⟨fun hu => absurd hu hnot, fun _ => ⟨hop.trans hop', hval.trans hval'⟩, hsecond.collation.trans hcoll.symm⟩

theorem Holds.unique {c d : WhereClause} {upper lower : WhereCall} (hupper : upper.IsUpper) (hlower : lower.IsLower)
    (hcu : Holds c upper) (hcl : Holds c lower) (hdu : Holds d upper) (hdl : Holds d lower) : c = d := by
  have hnot : ¬ lower.IsUpper := fun hu => hu.not_isLower hlower
  obtain ⟨hop, hval⟩ := hcu.upper hupper
  obtain ⟨hop', hval'⟩ := hdu.upper hupper
  obtain ⟨hlop, hlval⟩ := hcl.lower hnot
  obtain ⟨hlop', hlval'⟩ := hdl.lower hnot
  have hcoll : c.collation = d.collation := hcu.collation.trans hdu.collation.symm
  cases c
  cases d
  simp_all

/-- Two calls in either order, where nothing stops them. -/
theorem addWheres_swap {query : MojDbQuery} {x y : WhereCall} {calls : List WhereCall}
    (h : query.Clear (x :: y :: calls)) :
    SameOutcome (query.addWheres (x :: y :: calls)) (query.addWheres (y :: x :: calls)) := by
  obtain ⟨cx, qx, hcx, hqx, hrunx, hclearx⟩ := h.cons
  obtain ⟨cxy, qxy, hcxy, hqxy, hrunxy, -⟩ := hclearx.cons
  obtain ⟨cy, qy, hcy, hqy, hruny, hcleary⟩ := (h.perm (.swap y x calls)).cons
  obtain ⟨cyx, qyx, hcyx, hqyx, hrunyx, -⟩ := hcleary.cons
  rw [hrunx, hrunxy, hruny, hrunyx]
  refine addWheres_congr ⟨fun propName => ?_, ?_⟩ calls
  · rw [hqxy.clause, hqyx.clause, hqx.clause, hqy.clause]
    rw [hqx.clause] at hcxy
    rw [hqy.clause] at hcyx
    by_cases hname : x.propName = y.propName
    · rw [if_pos hname] at hcxy
      rw [if_pos hname.symm] at hcyx
      have hsame : cxy = cyx := by
        obtain ⟨haccx, hholdsx, hsetsx⟩ := setClause_ok hcx
        obtain ⟨haccy, hholdsy, -⟩ := setClause_ok hcy
        obtain ⟨-, hholdsxy, hsetsxy⟩ := setClause_ok hcxy
        obtain ⟨-, hholdsyx, hsetsyx⟩ := setClause_ok hcyx
        obtain ⟨hnone, hrange⟩ := hsetsx.range hsetsxy
        have hcoll : x.coll = y.coll := by
          by_contra hne
          refine h.mismatch ⟨x.propName, ?_⟩
          rw [hnone]
          refine ⟨x, ?_, y, ?_, hrange, hne⟩
          · simp [callsOn, haccx]
          · simp [callsOn, haccy, hname]
        have hx := hsetsxy.holds hholdsx hholdsxy hrange hcoll
        have hy := hsetsyx.holds hholdsy hholdsyx hrange.symm hcoll.symm
        cases hrange with
        | inl hr => exact Holds.unique hr.1 hr.2 hx hholdsxy hholdsyx hy
        | inr hr => exact Holds.unique hr.2 hr.1 hholdsxy hx hy hholdsyx
      rw [hname, hsame]
      by_cases hp : y.propName = propName <;> simp [hp]
    · rw [if_neg hname, hcy] at hcxy
      rw [if_neg (Ne.symm hname), hcx] at hcyx
      cases hcxy
      cases hcyx
      by_cases hx : x.propName = propName
      · rw [if_pos hx, if_neg (fun hy => hname (hx.trans hy.symm)), if_pos hx]
      · rw [if_neg hx, if_neg hx]
  · rw [hqxy.others, hqyx.others, hqx.others, hqy.others]

theorem addWheres_perm {query : MojDbQuery} {calls calls' : List WhereCall} (hperm : calls.Perm calls')
    (h : query.Clear calls) : SameOutcome (query.addWheres calls) (query.addWheres calls') := by
  induction hperm generalizing query with
  | nil => exact SameOutcome.refl _
  | cons call hperm ih =>
    obtain ⟨c, query', hset, hputs, hrun, hclear⟩ := h.cons
    obtain ⟨c', query'', hset', hputs', hrun', -⟩ := (h.perm (hperm.cons call)).cons
    rw [hrun, hrun']
    rw [hset] at hset'
    cases hset'
    refine (ih hclear).trans (addWheres_congr ⟨fun propName => ?_, ?_⟩ _)
    · rw [hputs.clause, hputs'.clause]
    · rw [hputs.others, hputs'.others]
  | swap x y calls => exact addWheres_swap h
  | trans hfirst _ ih ih' => exact (ih h).trans (ih' (h.perm hfirst))

/-! ## Orders that tell -/

theorem exists_perm_cons {call : WhereCall} {calls : List WhereCall} (h : call ∈ calls) :
    ∃ rest, calls.Perm (call :: rest) := by
  obtain ⟨front, back, rfl⟩ := List.append_of_mem h
  exact ⟨front ++ back, List.perm_middle⟩

theorem exists_perm_cons_cons {x y : WhereCall} {calls : List WhereCall} (hx : x ∈ calls) (hy : y ∈ calls) (hne : x ≠ y) :
    ∃ rest, calls.Perm (x :: y :: rest) := by
  obtain ⟨rest, hrest⟩ := exists_perm_cons hx
  have hmem : y ∈ rest := ((List.mem_cons.mp (hrest.mem_iff.mp hy)).resolve_left hne.symm)
  obtain ⟨rest', hrest'⟩ := exists_perm_cons hmem
  exact ⟨rest', hrest.trans (hrest'.cons x)⟩

theorem exists_perm_of_not_pairwise {R : WhereCall → WhereCall → Prop} {calls : List WhereCall}
    (h : ¬ calls.Pairwise R) : ∃ x y rest, ¬ R x y ∧ calls.Perm (x :: y :: rest) := by
  induction calls with
  | nil => exact absurd .nil h
  | cons call calls ih =>
    by_cases hall : ∀ call' ∈ calls, R call call'
    · obtain ⟨x, y, rest, hnot, hperm⟩ := ih fun hpair => h (List.pairwise_cons.mpr ⟨hall, hpair⟩)
      refine ⟨x, y, call :: rest, hnot, (hperm.cons call).trans ?_⟩
      exact (List.Perm.swap x call _).trans ((List.Perm.swap y call _).cons x)
    · push Not at hall
      obtain ⟨call', hmem, hnot⟩ := hall
      obtain ⟨rest, hrest⟩ := exists_perm_cons hmem
      exact ⟨call, call', rest, hnot, hrest.cons call⟩

/-- Calls on one property can come before all others. -/
theorem perm_of_callsOn {propName : MojString} {calls first rest : List WhereCall}
    (h : (callsOn propName calls).Perm (first ++ rest)) : ∃ rest', calls.Perm (first ++ rest') := by
  refine ⟨rest ++ calls.filter fun call => !decide (call.Accepted ∧ call.propName = propName), ?_⟩
  rw [← List.append_assoc]
  exact (List.filter_append_perm _ calls).symm.trans (h.append_right _)

theorem of_mem_callsOn {propName : MojString} {calls : List WhereCall} {call : WhereCall}
    (h : call ∈ callsOn propName calls) : call ∈ calls ∧ call.Accepted ∧ call.propName = propName := by
  obtain ⟨hmem, hon⟩ := List.mem_filter.mp h
  exact ⟨hmem, of_decide_eq_true hon⟩

theorem addWheres_of_error {query : MojDbQuery} {call : WhereCall} {err : MojErr} (rest : List WhereCall)
    (h : setClause (query.clause call.propName) call = .error err) : query.addWheres (call :: rest) = .error err := by
  obtain ⟨err', hset, hrun⟩ | ⟨c, -, hset, -⟩ := addWheres_cases query call rest
  · rw [hset] at h
    cases h
    exact hrun
  · rw [hset] at h
    cases h

/-- The second call on a property decides. -/
theorem addWheres_of_second {query : MojDbQuery} {x y : WhereCall} {c : WhereClause} {err : MojErr} (rest : List WhereCall)
    (hname : x.propName = y.propName) (hx : setClause (query.clause x.propName) x = .ok c)
    (hy : setClause (some c) y = .error err) : query.addWheres (x :: y :: rest) = .error err := by
  obtain ⟨err', hset, -⟩ | ⟨c', query', hset, hputs, hrun⟩ := addWheres_cases query x (y :: rest)
  · rw [hset] at hx
    cases hx
  · rw [hset] at hx
    cases hx
    rw [hrun]
    refine addWheres_of_error rest ?_
    rw [hputs.clause, if_pos hname]
    exact hy

theorem setClause_of_not_joins {c : WhereClause} {call : WhereCall} (h : call.Accepted) (hjoins : ¬ c.Joins call) :
    setClause (some c) call = .error .dbInvalidQueryOpCombo := by
  obtain ⟨-, he⟩ | ⟨hj, -⟩ | ⟨hj, -⟩ := setClause_some h c
  · exact he
  · exact absurd hj hjoins
  · exact absurd hj hjoins

theorem setClause_of_not_agrees {c : WhereClause} {call : WhereCall} (h : call.Accepted) (hjoins : c.Joins call)
    (hagrees : ¬ c.Agrees call) : setClause (some c) call = .error .dbInvalidQueryCollationMismatch := by
  obtain ⟨hnot, -⟩ | ⟨-, -, he⟩ | ⟨-, ha, -⟩ := setClause_some h c
  · exact absurd hjoins hnot
  · exact he
  · exact absurd ha hagrees

/-- The one of the two bounds that names a collation comes first. -/
theorem exists_mismatch {query : MojDbQuery} {calls : List WhereCall} (h : Somewhere MismatchAt query calls) :
    ∃ calls', calls.Perm calls' ∧ query.addWheres calls' = .error .dbInvalidQueryCollationMismatch := by
  obtain ⟨propName, h⟩ := h
  cases hclause : query.clause propName with
  | none =>
    rw [hclause] at h
    have hfirst : ∀ x ∈ callsOn propName calls, ∀ y ∈ callsOn propName calls, x.Range y → x.coll ≠ none →
        y.coll ≠ x.coll → ∃ calls', calls.Perm calls' ∧ query.addWheres calls' = .error .dbInvalidQueryCollationMismatch := by
      intro x hx y hy hrange hsome hne
      obtain ⟨hmemx, haccx, hnamex⟩ := of_mem_callsOn hx
      obtain ⟨hmemy, haccy, hnamey⟩ := of_mem_callsOn hy
      obtain ⟨rest, hperm⟩ := exists_perm_cons_cons hmemx hmemy fun he => hne (congrArg WhereCall.coll he).symm
      have hset : setClause (query.clause x.propName) x = .ok (createClause x.op x.val x.coll haccx.1 haccx.2) := by
        rw [hnamex, hclause, setClause_none haccx]
      refine ⟨_, hperm, addWheres_of_second rest (hnamex.trans hnamey.symm) hset ?_⟩
      refine setClause_of_not_agrees haccy ((createClause_joins haccx y).mpr hrange) ?_
      rw [WhereClause.Agrees, (createClause_holds haccx).collation]
      exact fun hor => hor.elim hsome hne
    obtain ⟨x, hx, y, hy, hrange, hne⟩ := h
    by_cases hnone : x.coll = none
    · exact hfirst y hy x hx hrange.symm (fun he => hne (hnone.trans he.symm)) hne
    · exact hfirst x hx y hy hrange hnone hne.symm
  | some c =>
    rw [hclause] at h
    obtain ⟨call, hon, hjoins, hagrees⟩ := h
    obtain ⟨hmem, hacc, hname⟩ := of_mem_callsOn hon
    obtain ⟨rest, hperm⟩ := exists_perm_cons hmem
    refine ⟨_, hperm, addWheres_of_error rest ?_⟩
    rw [hname, hclause]
    exact setClause_of_not_agrees hacc hjoins hagrees

theorem exists_clash {query : MojDbQuery} {calls : List WhereCall} (h : Somewhere ClashAt query calls) :
    ∃ calls', calls.Perm calls' ∧ query.addWheres calls' = .error .dbInvalidQueryOpCombo := by
  obtain ⟨propName, h⟩ := h
  cases hclause : query.clause propName with
  | none =>
    rw [hclause] at h
    obtain ⟨x, y, rest, hnot, hperm⟩ := exists_perm_of_not_pairwise h
    obtain ⟨-, haccx, hnamex⟩ := of_mem_callsOn (hperm.mem_iff.mpr List.mem_cons_self)
    obtain ⟨-, haccy, hnamey⟩ := of_mem_callsOn (hperm.mem_iff.mpr (.tail _ List.mem_cons_self))
    obtain ⟨rest', hperm'⟩ := @perm_of_callsOn propName calls [x, y] rest hperm
    have hset : setClause (query.clause x.propName) x = .ok (createClause x.op x.val x.coll haccx.1 haccx.2) := by
      rw [hnamex, hclause, setClause_none haccx]
    refine ⟨_, hperm', addWheres_of_second rest' (hnamex.trans hnamey.symm) hset (setClause_of_not_joins haccy ?_)⟩
    rwa [createClause_joins haccx]
  | some c =>
    rw [hclause] at h
    cases h with
    | inl h =>
      obtain ⟨call, hon, hjoins⟩ := h
      obtain ⟨hmem, hacc, hname⟩ := of_mem_callsOn hon
      obtain ⟨rest, hperm⟩ := exists_perm_cons hmem
      refine ⟨_, hperm, addWheres_of_error rest ?_⟩
      rw [hname, hclause]
      exact setClause_of_not_joins hacc hjoins
    | inr h =>
      obtain ⟨hlen, x, hx, hagrees⟩ := h
      obtain ⟨hmemx, haccx, hnamex⟩ := of_mem_callsOn hx
      by_cases hjoins : c.Joins x
      · obtain ⟨rest, hperm⟩ := exists_perm_cons hx
        cases rest with
        | nil =>
          rw [hperm.length_eq] at hlen
          exact absurd hlen (by simp)
        | cons y rest =>
          obtain ⟨-, haccy, hnamey⟩ := of_mem_callsOn (hperm.mem_iff.mpr (.tail _ List.mem_cons_self))
          obtain ⟨rest', hperm'⟩ := @perm_of_callsOn propName calls [x, y] rest hperm
          obtain ⟨hnot, -⟩ | ⟨-, hnot, -⟩ | ⟨-, -, c', hset, -⟩ := setClause_some haccx c
          · exact absurd hjoins hnot
          · exact absurd hagrees hnot
          · obtain ⟨-, -, hsets⟩ := setClause_ok hset
            rw [← hclause, ← hnamex] at hset
            refine ⟨_, hperm', addWheres_of_second rest' (hnamex.trans hnamey.symm) hset (setClause_of_not_joins haccy ?_)⟩
            cases hsets with
            | update _ _ hfull _ _ => exact hfull y
      · obtain ⟨rest, hperm⟩ := exists_perm_cons hmemx
        refine ⟨_, hperm, addWheres_of_error rest ?_⟩
        rw [hnamex, hclause]
        exact setClause_of_not_joins haccx hjoins

theorem exists_refused {query : MojDbQuery} {calls : List WhereCall} (h : ∃ call ∈ calls, ¬ call.Accepted) :
    ∃ calls', calls.Perm calls' ∧ query.addWheres calls' = .error .dbInvalidQuery := by
  obtain ⟨call, hmem, hnot⟩ := h
  obtain ⟨rest, hperm⟩ := exists_perm_cons hmem
  exact ⟨_, hperm, addWheres_of_error rest (setClause_of_not_accepted hnot)⟩

/-- With the calls that name no collation first, only two different names make a mismatch. -/
theorem exists_not_late {query : MojDbQuery} {calls : List WhereCall} (h : ¬ Somewhere StrictAt query calls) :
    ∃ calls', calls.Perm calls' ∧ ¬ Somewhere LateAt query calls' := by
  refine ⟨(calls.filter fun call => call.coll = none) ++ calls.filter fun call => !decide (call.coll = none),
    (List.filter_append_perm _ calls).symm, fun hlate => ?_⟩
  have hperm := (List.filter_append_perm (fun call => decide (call.coll = none)) calls).symm
  generalize hcalls' : ((calls.filter fun call => call.coll = none) ++
    calls.filter fun call => !decide (call.coll = none)) = calls' at hlate hperm
  have hstrict : ¬ Somewhere StrictAt query calls' := fun hs => h (hs.perm strictAt_perm hperm.symm)
  obtain ⟨propName, hlate⟩ := hlate
  cases hclause : query.clause propName with
  | some c =>
    rw [hclause] at hlate
    refine hstrict ⟨propName, ?_⟩
    rw [hclause]
    exact hlate
  | none =>
    rw [hclause] at hlate
    have hsorted : calls'.Pairwise fun call call' => call.coll = none ∨ call'.coll ≠ none := by
      rw [← hcalls']
      refine List.pairwise_append.mpr ⟨?_, ?_, ?_⟩
      · exact List.pairwise_of_forall_mem_list fun a ha _ _ => .inl (by simpa using List.of_mem_filter ha)
      · exact List.pairwise_of_forall_mem_list fun _ _ b hb => .inr (by simpa using List.of_mem_filter hb)
      · exact fun a ha _ _ => .inl (by simpa using List.of_mem_filter ha)
    refine hlate ((hsorted.filter _).imp_of_mem fun {a b} ha hb hor hrange => ?_)
    by_contra hne
    obtain ⟨hsome, hne⟩ := not_or.mp hne
    refine hstrict ⟨propName, ?_⟩
    rw [hclause]
    exact ⟨a, ha, b, hb, hrange, hsome, hor.resolve_left hsome, hne⟩

/-- The calls hold at most one kind of trouble, and a lower and an upper bound that differ in their collations both
name one. -/
structure OrderFree (query : MojDbQuery) (calls : List WhereCall) : Prop where
  refused : (∃ call ∈ calls, ¬ call.Accepted) → ¬ Somewhere ClashAt query calls ∧ ¬ Somewhere MismatchAt query calls
  clash : Somewhere ClashAt query calls → ¬ Somewhere MismatchAt query calls
  mismatch : Somewhere MismatchAt query calls → Somewhere StrictAt query calls

theorem OrderFree.of_error {query : MojDbQuery} {calls calls' : List WhereCall} {err : MojErr}
    (hperm : calls.Perm calls') (h : query.addWheres calls' = .error err) :
    (err = .dbInvalidQuery ∧ ∃ call ∈ calls, ¬ call.Accepted) ∨
      (err = .dbInvalidQueryOpCombo ∧ Somewhere ClashAt query calls) ∨
      (err = .dbInvalidQueryCollationMismatch ∧ Somewhere MismatchAt query calls) := by
  obtain ⟨he, call, hmem, hnot⟩ | ⟨he, hclash⟩ | ⟨he, propName, hlate⟩ := error_of_trouble h
  · exact .inl ⟨he, call, hperm.mem_iff.mpr hmem, hnot⟩
  · exact .inr (.inl ⟨he, hclash.perm clashAt_perm hperm.symm⟩)
  · have hmis : Somewhere MismatchAt query calls' := ⟨propName, mismatchAt_of_lateAt hlate⟩
    exact .inr (.inr ⟨he, hmis.perm mismatchAt_perm hperm.symm⟩)

theorem OrderFree.clear {query query' : MojDbQuery} {calls : List WhereCall} (h : query.OrderFree calls)
    (hrun : query.addWheres calls = .ok query') : query.Clear calls := by
  obtain ⟨hall, hclash, hstrict⟩ := ok_of_run hrun
  exact ⟨hall, hclash, fun hmis => hstrict (h.mismatch hmis)⟩

theorem OrderFree.sameOutcome {query : MojDbQuery} {calls calls' : List WhereCall} (h : query.OrderFree calls)
    (hperm : calls.Perm calls') : SameOutcome (query.addWheres calls) (query.addWheres calls') := by
  cases hrun : query.addWheres calls with
  | ok query' =>
    rw [← hrun]
    exact addWheres_perm hperm (h.clear hrun)
  | error err =>
    cases hrun' : query.addWheres calls' with
    | ok query' =>
      obtain ⟨hall, hclash, hstrict⟩ := ok_of_run hrun'
      obtain ⟨-, call, hmem, hnot⟩ | ⟨-, hc⟩ | ⟨-, hm⟩ := OrderFree.of_error (List.Perm.refl calls) hrun
      · exact absurd (hall call (hperm.mem_iff.mp hmem)) hnot
      · exact absurd (hc.perm clashAt_perm hperm) hclash
      · exact absurd ((h.mismatch hm).perm strictAt_perm hperm) hstrict
    | error err' =>
      change err = err'
      obtain ⟨he, hr⟩ | ⟨he, hc⟩ | ⟨he, hm⟩ := OrderFree.of_error (List.Perm.refl calls) hrun <;>
      obtain ⟨he', hr'⟩ | ⟨he', hc'⟩ | ⟨he', hm'⟩ := OrderFree.of_error hperm hrun'
      · rw [he, he']
      · exact absurd hc' (h.refused hr).1
      · exact absurd hm' (h.refused hr).2
      · exact absurd hc (h.refused hr').1
      · rw [he, he']
      · exact absurd hm' (h.clash hc)
      · exact absurd hm (h.refused hr').2
      · exact absurd hm (h.clash hc')
      · rw [he, he']

/-- Adding the calls has the same outcome in every order, exactly if they are `OrderFree`. -/
theorem addWheres_perm_iff (query : MojDbQuery) (calls : List WhereCall) :
    (∀ calls', calls.Perm calls' → SameOutcome (query.addWheres calls) (query.addWheres calls')) ↔
      query.OrderFree calls := by
  refine ⟨fun h => ?_, fun h calls' hperm => h.sameOutcome hperm⟩
  · -- two orders with different errors, or with an error and a query
    have hsame : ∀ {as bs : List WhereCall}, calls.Perm as → calls.Perm bs →
        SameOutcome (query.addWheres as) (query.addWheres bs) :=
      fun ha hb => (h _ ha).symm.trans (h _ hb)
    refine ⟨fun hrefused => ⟨fun hclash => ?_, fun hmis => ?_⟩, fun hclash hmis => ?_, fun hmis => ?_⟩
    · obtain ⟨as, ha, herr⟩ := @exists_refused query _ hrefused
      obtain ⟨bs, hb, herr'⟩ := exists_clash hclash
      have hne := hsame ha hb
      rw [herr, herr'] at hne
      cases hne
    · obtain ⟨as, ha, herr⟩ := @exists_refused query _ hrefused
      obtain ⟨bs, hb, herr'⟩ := exists_mismatch hmis
      have hne := hsame ha hb
      rw [herr, herr'] at hne
      cases hne
    · obtain ⟨as, ha, herr⟩ := exists_clash hclash
      obtain ⟨bs, hb, herr'⟩ := exists_mismatch hmis
      have hne := hsame ha hb
      rw [herr, herr'] at hne
      cases hne
    · by_contra hstrict
      obtain ⟨as, ha, herr⟩ := exists_mismatch hmis
      obtain ⟨bs, hb, hlate⟩ := exists_not_late hstrict
      have hbs := hsame ha hb
      rw [herr] at hbs
      cases hrun : query.addWheres bs with
      | ok query' =>
        rw [hrun] at hbs
        cases hbs
      | error err =>
        rw [hrun] at hbs
        cases hbs
        obtain ⟨he, -⟩ | ⟨he, -⟩ | ⟨-, hl⟩ := error_of_trouble hrun
        · cases he
        · cases he
        · exact hlate hl

/-- `zz`. -/
def boundName : MojString := ⟨[122, 122], by decide⟩

/-- `zz > 1` without a collation, and `zz < 5` with one. -/
def lowerCall : WhereCall := ⟨boundName, .opGreaterThan, .int 1, none⟩

def upperCall : WhereCall := ⟨boundName, .opLessThan, .int 5, some .primary⟩

def noClauses : MojDbQuery where
  whereClauses := []
  filterClauses := []
  orderProp := MojString.empty
  distinct := MojString.empty
  desc := false
  limit := 0
  page := []
  ignoreInactiveShards := true
  where_nodup := .nil

theorem addWheres_order_matters :
    ¬ ∀ (query : MojDbQuery) (calls calls' : List WhereCall), calls.Perm calls' →
      SameOutcome (query.addWheres calls) (query.addWheres calls') := by
  intro h
  have hsame := h noClauses [lowerCall, upperCall] [upperCall, lowerCall] (.swap _ _ _)
  have hlower : ∃ query, noClauses.addWheres [lowerCall, upperCall] = .ok query := ⟨_, rfl⟩
  obtain ⟨query, hlower⟩ := hlower
  have hupper : noClauses.addWheres [upperCall, lowerCall] = .error .dbInvalidQueryCollationMismatch := rfl
  rw [hlower, hupper] at hsame
  exact hsame

end MojDbQuery

end Db8
