import Db8.Core.MojSchemaMeaning
import Db8.Core.MojString

/-!
# Core.MojSchemaLoops

Checks that find out whether a property holds, and the loops that put them together.

* `Gives`           — a result that is valid just when a property holds.
* `Settles`         — a check of which all results are such.
* `settles_schemaRule`, `settles_unionTypeRule`, `settles_tupleLoop` — the loops over rules and items.
* `gives_propsLoop` — the walk over two lists of properties.
-/

namespace Db8

open Lib MojObject

namespace MojSchema

/-! ## Results -/

/-- There is a result, which is valid just when `p` holds. -/
def Gives (x : Except Trap Result) (p : Prop) : Prop :=
  match x with
  | .ok res => res.valid = true ↔ p
  | .error _ => False

theorem Gives.congr {p q : Prop} {x : Except Trap Result} (h : Gives x p) (hpq : p ↔ q) : Gives x q := by
  cases x with
  | ok res => exact Iff.trans h hpq
  | error trap => exact h

/-- A check that goes on only when the result is valid so far. -/
theorem Gives.andThen {p q : Prop} {x : Except Trap Result} {f : Result → Except Trap Result} {g : Result → Result}
    (hx : Gives x p) (hg : ∀ res, res.valid = false → (g res).valid = false)
    (hf : ∀ res, res.valid = true → Gives (f res) q) :
    Gives (x >>= fun res => if !res.valid then pure (g res) else f res) (p ∧ q) := by
  cases x with
  | error trap => exact hx
  | ok res =>
    rw [ok_bind]
    cases hvalid : res.valid with
    | false =>
      have hp : ¬p := fun hp => by
        rw [(show res.valid = true ↔ p from hx).mpr hp] at hvalid
        cases hvalid
      exact iff_of_false (by simp [hg res hvalid]) fun h => hp h.1
    | true => exact (hf res hvalid).congr (and_iff_right ((show res.valid = true ↔ p from hx).mp hvalid)).symm

theorem gives_pure {res : Result} (hres : res.valid = true) : Gives (pure res) True := iff_of_true hres trivial

/-- A check that goes on only when the result is not valid. -/
theorem Gives.orElse {p q : Prop} {x : Except Trap Result} {f : Result → Except Trap Result}
    (hx : Gives x p) (hf : ∀ res, Gives (f res) q) :
    Gives (x >>= fun res => if res.valid then pure res else f res) (p ∨ q) := by
  cases x with
  | error trap => exact hx
  | ok res =>
    rw [ok_bind]
    cases hvalid : res.valid with
    | true => exact iff_of_true hvalid (.inl ((show res.valid = true ↔ p from hx).mp hvalid))
    | false =>
      have hp : ¬p := fun hp => by
        rw [(show res.valid = true ↔ p from hx).mpr hp] at hvalid
        cases hvalid
      exact (hf res).congr (or_iff_right hp).symm

/-- Of every regular value in every parent the check finds out whether `P` holds, as long as nothing has failed. -/
def Settles (check : Check) (P : MojObject → MojObject → Prop) : Prop :=
  ∀ val parent res, Regular val → res.valid = true → Gives (check val parent res) (P val parent)

theorem Settles.congr {check : Check} {P Q : MojObject → MojObject → Prop} (h : Settles check P)
    (hPQ : ∀ val parent, Regular val → (P val parent ↔ Q val parent)) : Settles check Q :=
  fun val parent res hval hres => (h val parent res hval hres).congr (hPQ val parent hval)

/-! ## Loops -/

section Loops

variable {α : Type} {P : α → MojObject → MojObject → Prop} {ext : Externals}

theorem settles_schemaRule {checks : List Check} {as : List α} (h : List.Forall₂ (fun check a => Settles check (P a)) checks as) :
    Settles (SchemaRule.validate checks) fun val parent => ∀ a ∈ as, P a val parent := by
  induction h with
  | nil => exact fun _ _ _ _ hres => iff_of_true hres (List.forall_mem_nil _)
  | cons hcheck _ ih =>
    intro val parent res hval hres
    refine ((hcheck val parent res hval hres).andThen (fun _ hf => hf) fun res' hres' => ih val parent res' hval hres').congr ?_
    exact (List.forall_mem_cons (p := fun a => P a val parent)).symm

/-- A union looks at each of its alternatives as if nothing had failed. -/
theorem settles_unionTypeRule {checks : List Check} {as : List α}
    (h : List.Forall₂ (fun check a => Settles check (P a)) checks as) :
    Settles (UnionTypeRule.validate checks) fun val parent => ∃ a ∈ as, P a val parent := by
  have hunion : ∀ val parent res, Regular val →
      Gives (UnionTypeRule.validate checks val parent res) (∃ a ∈ as, P a val parent) := by
    induction h with
    | nil => exact fun _ _ _ _ => iff_of_false Bool.false_ne_true (by simp)
    | cons hcheck _ ih =>
      intro val parent res hval
      refine ((hcheck val parent { res with valid := true } hval rfl).orElse fun res' => ih val parent res' hval).congr ?_
      simp
  exact fun val parent res hval _ => hunion val parent res hval

/-- What is disallowed must not be found. -/
theorem settles_disallowRule {check : Check} {P : MojObject → MojObject → Prop} (h : Settles check P) :
    Settles (DisallowRule.validate check) fun val parent => ¬P val parent := by
  intro val parent res hval hres
  have hcheck := h val parent ⟨true, []⟩ hval rfl
  unfold DisallowRule.validate
  cases htype : check val parent ⟨true, []⟩ with
  | error trap =>
    rw [htype] at hcheck
    exact hcheck
  | ok typeRes =>
    rw [htype] at hcheck
    rw [ok_bind]
    have hiff : typeRes.valid = true ↔ P val parent := hcheck
    split_ifs with hvalid
    · exact iff_of_false Bool.false_ne_true (not_not.mpr (hiff.mp hvalid))
    · exact iff_of_true hres (mt hiff.mpr hvalid)

theorem settles_itemsLoop {check : Check} {P : MojObject → MojObject → Prop} (h : Settles check P) (val : MojObject)
    {xs : List MojObject} (hxs : ∀ x ∈ xs, Regular x) {res : Result} (hres : res.valid = true) :
    Gives (ItemsRule.loop check val xs res) (∀ x ∈ xs, P x val) := by
  induction xs generalizing res with
  | nil => exact iff_of_true hres (List.forall_mem_nil _)
  | cons x xs ih =>
    rw [List.forall_mem_cons] at hxs
    refine ((h x val res hxs.1 hres).andThen (fun _ hf => hf) fun res' hres' => ih hxs.2 hres').congr ?_
    exact (List.forall_mem_cons (p := fun x => P x val)).symm

/-- Each place of the tuple has an item, and the items behind them are as the other rule says. -/
theorem settles_tupleLoop {checks : List Check} {as : List α} {additional : Option Check} {E : MojObject → MojObject → Prop}
    (h : List.Forall₂ (fun check a => Settles check (P a)) checks as)
    (hadditional : ∀ check, additional = some check → Settles check E) (val : MojObject)
    {xs : List MojObject} (hxs : ∀ x ∈ xs, Regular x) {res : Result} (hres : res.valid = true) :
    Gives (TupleItemsRule.loop additional val checks xs res)
      ((∀ (i : Nat) a, as[i]? = some a → ∃ x, xs[i]? = some x ∧ P a x val) ∧
        (additional.isSome = true → ∀ x ∈ xs.drop as.length, E x val)) := by
  induction h generalizing xs res with
  | nil =>
    have hnone : ∀ (i : Nat) a, ([] : List α)[i]? = some a → ∃ x, xs[i]? = some x ∧ P a x val := fun i a ha => by
      rw [List.getElem?_nil] at ha
      cases ha
    rw [List.length_nil, List.drop_zero, and_iff_right hnone]
    cases hadd : additional with
    | none =>
      have hloop : TupleItemsRule.loop none val [] xs res = .ok res := by cases xs <;> rfl
      rw [hloop]
      exact iff_of_true hres fun h => by cases h
    | some check =>
      have hloop : TupleItemsRule.loop (some check) val [] xs res = ItemsRule.loop check val xs res := by cases xs <;> rfl
      rw [hloop]
      exact (settles_itemsLoop (hadditional check hadd) val hxs hres).congr ⟨fun h _ => h, fun h => h rfl⟩
  | @cons check a checks as hcheck hrest ih =>
    cases xs with
    | nil =>
      refine iff_of_false Bool.false_ne_true fun h => ?_
      obtain ⟨x, hx, -⟩ := h.1 0 a rfl
      cases hx
    | cons x xs =>
      rw [List.forall_mem_cons] at hxs
      refine ((hcheck x val res hxs.1 hres).andThen (fun _ hf => hf) fun res' hres' => ih hxs.2 hres').congr ?_
      rw [List.length_cons, List.drop_succ_cons, ← and_assoc]
      refine and_congr_left fun _ => ?_
      constructor
      · intro ⟨hx, hplaces⟩ i b hb
        cases i with
        | zero =>
          obtain rfl := Option.some.inj hb
          exact ⟨x, rfl, hx⟩
        | succ i => exact hplaces i b hb
      · intro h
        refine ⟨?_, fun i b hb => h (i + 1) b hb⟩
        obtain ⟨y, hy, hP⟩ := h 0 a rfl
        obtain rfl := Option.some.inj hy
        exact hP

/-! ### The walk over the properties -/

/-- The check is that of the schema of the property. -/
structure Checks (ext : Externals) (c : PropCheck) (p : MojString × MojObject) : Prop where
  key : c.key = p.1
  optional : c.optional = optionalOf p.2
  settles : Settles c.check (Satisfies ext p.2)

/-- Each property of the schema is as it says, or it is missing and may be. -/
def PropsHold (ext : Externals) (ps vals : List (MojString × MojObject)) (val : MojObject) : Prop :=
  ∀ p ∈ ps, (∀ v ∈ vals, v.1 = p.1 → Satisfies ext p.2 v.2 val) ∧ ((∀ v ∈ vals, v.1 ≠ p.1) → optionalOf p.2 = true)

/-- Each property that the schema does not name is as the other rule says. -/
def ExtrasHold (E : MojObject → MojObject → Prop) (ps vals : List (MojString × MojObject)) (val : MojObject) : Prop :=
  ∀ v ∈ vals, (∀ p ∈ ps, p.1 ≠ v.1) → E v.2 val

/-- The names are in order. -/
def InOrder (ps : List (MojString × MojObject)) : Prop := ps.Pairwise fun p q => p.1.compare q.1 = .lt

theorem ne_of_compare_eq_lt {k l : MojString} (h : k.compare l = .lt) : k ≠ l := by
  intro he
  rw [MojString.compare_eq_iff.mpr he] at h
  cases h

theorem compare_eq_lt_of_gt {k l : MojString} (h : k.compare l = .gt) : l.compare k = .lt := MojString.compare_eq_gt.mp h

section Walk

variable {E : MojObject → MojObject → Prop} {ps vals vs : List (MojString × MojObject)} {p v : MojString × MojObject}
  {val : MojObject}

theorem propsHold_skip (h : ∀ p ∈ ps, p.1 ≠ v.1) : PropsHold ext ps (v :: vs) val ↔ PropsHold ext ps vs val := by
  refine forall₂_congr fun p hp => ?_
  have hne : v.1 ≠ p.1 := (h p hp).symm
  rw [List.forall_mem_cons, List.forall_mem_cons]
  exact and_congr (and_iff_right fun he => absurd he hne) (imp_congr_left (and_iff_right hne))

theorem propsHold_missing (h : ∀ v ∈ vals, p.1 ≠ v.1) :
    PropsHold ext (p :: ps) vals val ↔ optionalOf p.2 = true ∧ PropsHold ext ps vals val := by
  refine List.forall_mem_cons.trans (and_congr_left fun _ => ?_)
  constructor
  · intro hp
    exact hp.2 fun v hv => (h v hv).symm
  · intro hoptional
    exact ⟨fun v hv he => absurd he.symm (h v hv), fun _ => hoptional⟩

theorem propsHold_shared (hv : p.1 = v.1) (hvs : ∀ w ∈ vs, p.1 ≠ w.1) (hps : ∀ q ∈ ps, q.1 ≠ v.1) :
    PropsHold ext (p :: ps) (v :: vs) val ↔ Satisfies ext p.2 v.2 val ∧ PropsHold ext ps vs val := by
  refine List.forall_mem_cons.trans (and_congr ?_ (propsHold_skip hps))
  constructor
  · intro hp
    exact hp.1 v List.mem_cons_self hv.symm
  · intro hsat
    refine ⟨fun w hw he => ?_, fun hall => absurd hv.symm (hall v List.mem_cons_self)⟩
    cases List.mem_cons.mp hw with
    | inl hw => exact hw ▸ hsat
    | inr hw => exact absurd he.symm (hvs w hw)

theorem extrasHold_cons (h : ∀ p ∈ ps, p.1 ≠ v.1) : ExtrasHold E ps (v :: vs) val ↔ E v.2 val ∧ ExtrasHold E ps vs val :=
  List.forall_mem_cons.trans (and_congr_left fun _ => ⟨fun hv => hv h, fun hv _ => hv⟩)

theorem extrasHold_named (hp : p ∈ ps) (he : p.1 = v.1) : ExtrasHold E ps (v :: vs) val ↔ ExtrasHold E ps vs val :=
  List.forall_mem_cons.trans (and_iff_right fun hall => absurd he (hall p hp))

theorem extrasHold_skip (h : ∀ v ∈ vals, p.1 ≠ v.1) : ExtrasHold E (p :: ps) vals val ↔ ExtrasHold E ps vals val := by
  refine forall₂_congr fun v hv => imp_congr_left ?_
  rw [List.forall_mem_cons]
  exact and_iff_right (h v hv)

variable {additional : Option Check} (hadditional : ∀ check, additional = some check → Settles check E)
  (hnone : additional = none → ∀ v val, E v val)

include hadditional hnone

theorem gives_extra (hv : Regular v.2) {res : Result} (hres : res.valid = true) :
    Gives (PropertiesRule.extra additional val v res) (E v.2 val) := by
  cases hadd : additional with
  | none => exact iff_of_true hres (hnone hadd v.2 val)
  | some check =>
    have hcheck := hadditional check hadd v.2 val res hv hres
    exact (hcheck.andThen (g := fun res => { res with msg := res.msg ++ text " - '" ++ v.1.chars ++ text "'" })
      (fun _ hf => hf) fun _ hres' => gives_pure hres').congr (and_iff_left trivial)

omit hadditional hnone in
theorem gives_shared {c : PropCheck} (hc : Checks ext c p) (hv : Regular v.2) {res : Result}
    (hres : res.valid = true) : Gives (PropertiesRule.shared c val v.2 res) (Satisfies ext p.2 v.2 val) := by
  have hcheck := hc.settles v.2 val res hv hres
  exact (hcheck.andThen (g := fun res => { res with msg := res.msg ++ text " for property '" ++ c.key.chars ++ text "'" })
    (fun _ hf => hf) fun _ hres' => gives_pure hres').congr (and_iff_left trivial)

omit hadditional hnone in
/-- A missing property ends the walk unless it may be missing. -/
theorem gives_missing {c : PropCheck} (hc : Checks ext c p) {res : Result} (hres : res.valid = true) {q : Prop}
    {rest : Result → Except Trap Result} (hrest : Gives (rest res) q) :
    Gives (if !(PropertiesRule.missing c res).valid then .ok (PropertiesRule.missing c res)
      else rest (PropertiesRule.missing c res)) (optionalOf p.2 = true ∧ q) := by
  unfold PropertiesRule.missing
  rw [hc.optional]
  cases hoptional : optionalOf p.2 with
  | false => exact iff_of_false Bool.false_ne_true fun h => Bool.false_ne_true h.1
  | true =>
    rw [if_pos rfl, hres]
    exact hrest.congr (and_iff_right rfl).symm

/-- The walk finds out whether both kinds of properties are as they should be. -/
theorem gives_propsLoop {cs : List PropCheck} (h : List.Forall₂ (Checks ext) cs ps) (hps : InOrder ps)
    (hvals : InOrder vals) (hordered : ∀ v ∈ vals, Regular v.2) {res : Result} (hres : res.valid = true) :
    Gives (PropertiesRule.loop additional val cs vals res) (PropsHold ext ps vals val ∧ ExtrasHold E ps vals val) := by
  induction h generalizing vals res with
  | nil =>
    rw [and_iff_right (show PropsHold ext [] vals val from List.forall_mem_nil _)]
    induction vals generalizing res with
    | nil =>
      rw [PropertiesRule.loop]
      exact iff_of_true hres (List.forall_mem_nil _)
    | cons v vs ih =>
      rw [List.forall_mem_cons] at hordered
      rw [PropertiesRule.loop, extrasHold_cons (List.forall_mem_nil _)]
      exact (gives_extra hadditional hnone hordered.1 hres).andThen (fun _ hf => hf) fun res' hres' =>
        ih hvals.of_cons hordered.2 hres'
  | @cons c p cs ps hc _ ih =>
    have hbehind : ∀ q ∈ ps, p.1.compare q.1 = .lt := (List.pairwise_cons.mp hps).1
    induction vals generalizing res with
    | nil =>
      rw [PropertiesRule.loop, propsHold_missing (List.forall_mem_nil _), extrasHold_skip (List.forall_mem_nil _), and_assoc]
      exact gives_missing hc hres (ih hps.of_cons hvals hordered hres)
    | cons v vs ihvals =>
      have hbehindVal : ∀ w ∈ vs, v.1.compare w.1 = .lt := (List.pairwise_cons.mp hvals).1
      have horderedCons := List.forall_mem_cons.mp hordered
      rw [PropertiesRule.loop, hc.key]
      cases hcomp : p.1.compare v.1 with
      | lt =>
        have hne : ∀ w ∈ v :: vs, p.1 ≠ w.1 := by
          rw [List.forall_mem_cons]
          exact ⟨ne_of_compare_eq_lt hcomp, fun w hw => ne_of_compare_eq_lt (MojString.compare_trans hcomp (hbehindVal w hw))⟩
        rw [propsHold_missing hne, extrasHold_skip hne, and_assoc]
        exact gives_missing hc hres (ih hps.of_cons hvals hordered hres)
      | eq =>
        have he : p.1 = v.1 := MojString.compare_eq_iff.mp hcomp
        have hvs : ∀ w ∈ vs, p.1 ≠ w.1 := fun w hw => he ▸ ne_of_compare_eq_lt (hbehindVal w hw)
        have hqs : ∀ q ∈ ps, q.1 ≠ v.1 := fun q hq => he ▸ (ne_of_compare_eq_lt (hbehind q hq)).symm
        rw [propsHold_shared he hvs hqs, extrasHold_named List.mem_cons_self he, extrasHold_skip hvs, and_assoc]
        exact (gives_shared hc horderedCons.1 hres).andThen (fun _ hf => hf) fun res' hres' =>
          ih hps.of_cons hvals.of_cons horderedCons.2 hres'
      | gt =>
        have hlt := compare_eq_lt_of_gt hcomp
        have hne : ∀ q ∈ p :: ps, q.1 ≠ v.1 := by
          rw [List.forall_mem_cons]
          exact ⟨(ne_of_compare_eq_lt hlt).symm, fun q hq => (ne_of_compare_eq_lt (MojString.compare_trans hlt (hbehind q hq))).symm⟩
        rw [propsHold_skip hne, extrasHold_cons hne, and_left_comm]
        exact (gives_extra hadditional hnone horderedCons.1 hres).andThen (fun _ hf => hf) fun res' hres' =>
          ihvals hvals.of_cons horderedCons.2 hres'

end Walk

end Loops

end MojSchema

end Db8
