import Db8.Db.MojDbQueryCovers

/-!
# Db.MojDbQueryOrder

The ranges of a plan lie one behind the other in key order, cut at a page or not.

* `Precedes`            — two spans are apart, or the second falls inside the first.
* `combinations_precede` — so are any two spans of the combinations, in order.
* `buildRanges_ordered` — the ranges that are kept are apart, in the order their scans start.
-/

namespace Db8

open Lib

namespace MojDbQueryPlan

/-- The second span starts behind the first, or falls inside it. -/
def Precedes (a b : MojDbKey × MojDbKey) : Prop :=
  a.1 ≤ b.1 ∧ (a.2 ≤ b.1 ∧ a.2 ≤ b.2 ∨ b.1 < b.2 ∧ b.2 ≤ a.2)

/-- Every key of the first range is below every key of the second. -/
def Apart (a b : MojDbKeyRange) : Prop := a.upperKey ≤ b.lowerKey

/-- Apart, and a scan of the second range starts behind that of the first, also where a range is empty. -/
structure Behind (desc : Bool) (a b : MojDbKeyRange) : Prop where
  apart : Apart a b
  start_le : a.key desc ≤ b.key desc

variable {query : MojDbQuery}

/-! ## Cutting at the page -/

theorem pageRange_asc {range cut : MojDbKeyRange} (hdesc : query.desc = false)
    (hu : range.upperKey ≠ []) (h : pageRange query range = some cut) :
    cut.lowerKey = max range.lowerKey query.page ∧ cut.upperKey = range.upperKey ∧
      query.page ≤ range.upperKey := by
  simp only [pageRange, hdesc, MojDbKeyRange.key, MojDbKeyRange.setKey, Bool.not_false, if_true,
    Bool.false_eq_true, if_false, decide_eq_false_iff_not, not_lt, not_le, hu, ne_eq, not_false_eq_true,
    true_and] at h
  split_ifs at h with hempty hdiscard hcut
  · cases h
    simp [hempty]
  · cases h
    have hle : range.lowerKey ≤ query.page := hcut.elim (fun h0 => h0 ▸ nil_le _) id
    exact ⟨(max_eq_right hle).symm, rfl, not_lt.mp hdiscard⟩
  · cases h
    exact ⟨(max_eq_left (not_le.mp (not_or.mp hcut).2).le).symm, rfl, not_lt.mp hdiscard⟩

theorem pageRange_desc {range cut : MojDbKeyRange} (hdesc : query.desc = true)
    (hu : range.upperKey ≠ []) (h : pageRange query range = some cut) :
    cut.lowerKey = range.lowerKey ∧
      (query.page = [] ∧ cut.upperKey = range.upperKey ∨
        cut.upperKey = min range.upperKey query.page ∧ range.lowerKey < query.page) := by
  simp only [pageRange, hdesc, MojDbKeyRange.key, MojDbKeyRange.setKey, Bool.not_true, if_true,
    Bool.false_eq_true, if_false, decide_eq_true_eq, hu, false_or] at h
  split_ifs at h with hempty hdiscard hcut
  · cases h
    exact ⟨rfl, .inl ⟨hempty, rfl⟩⟩
  all_goals
    have hlow : range.lowerKey < query.page := by
      rcases eq_or_ne range.lowerKey [] with h0 | h0
      · rw [h0]
        exact lt_of_le_of_ne (nil_le _) (Ne.symm hempty)
      · exact not_le.mp fun hle => hdiscard ⟨h0, hle⟩
  · cases h
    exact ⟨rfl, .inr ⟨(min_eq_right hcut.le).symm, hlow⟩⟩
  · cases h
    exact ⟨rfl, .inr ⟨(min_eq_left (not_lt.mp hcut)).symm, hlow⟩⟩

/-- A span that precedes another still does so when both are cut at the page; one inside the other
is dropped, unless the page leaves nothing of it. -/
theorem cut_of_precedes {a b : MojDbKey × MojDbKey} (hab : Precedes a b) (ha : a.2 ≠ []) (hb : b.2 ≠ [])
    {back range : MojDbKeyRange} (hback : pageRange query ⟨a.1, a.2, 0⟩ = some back)
    (hrange : pageRange query ⟨b.1, b.2, 0⟩ = some range) :
    back.lowerKey ≤ range.lowerKey ∧ (Behind query.desc back range ∨ back.containsRange range = true) := by
  have hcontains : ∀ {outer inner : MojDbKeyRange}, outer.lowerKey ≤ inner.lowerKey →
      inner.lowerKey < outer.upperKey → inner.upperKey ≤ outer.upperKey →
      outer.containsRange inner = true := by
    intro outer inner hl hm hu
    simp only [MojDbKeyRange.containsRange, MojDbKeyRange.contains, decide_eq_true_eq]
    exact ⟨⟨.inr hl, .inr hm⟩, .inr hu⟩
  obtain ⟨hlow, hup⟩ := hab
  cases hdesc : query.desc with
  | false =>
    obtain ⟨hbl, hbu, -⟩ := pageRange_asc hdesc (by exact ha) hback
    obtain ⟨hrl, hru, hpage⟩ := pageRange_asc hdesc (by exact hb) hrange
    dsimp only at hbl hbu hrl hru hpage
    have hmono : back.lowerKey ≤ range.lowerKey := by
      rw [hbl, hrl]
      exact max_le_max hlow le_rfl
    refine ⟨hmono, ?_⟩
    rcases hup with ⟨hapart, -⟩ | ⟨hne, hinside⟩
    · refine .inl ⟨?_, hmono⟩
      rw [Apart, hbu, hrl]
      exact hapart.trans (le_max_left _ _)
    · rcases lt_or_ge range.lowerKey back.upperKey with hlt | hge
      · exact .inr (hcontains hmono hlt (hru ▸ hbu ▸ hinside))
      · exact .inl ⟨hge, hmono⟩
  | true =>
    obtain ⟨hbl, hbu⟩ := pageRange_desc hdesc (by exact ha) hback
    obtain ⟨hrl, hru⟩ := pageRange_desc hdesc (by exact hb) hrange
    dsimp only at hbl hbu hrl hru
    have hmono : back.lowerKey ≤ range.lowerKey := by rwa [hbl, hrl]
    refine ⟨hmono, ?_⟩
    have hbound : back.upperKey ≤ a.2 := by
      rcases hbu with ⟨-, hbu⟩ | ⟨hbu, -⟩
      exacts [hbu.le, hbu ▸ min_le_left _ _]
    rcases hup with ⟨hapart, hle⟩ | ⟨hne, hinside⟩
    · refine .inl ⟨?_, ?_⟩
      · rw [Apart, hrl]
        exact hbound.trans hapart
      · change back.upperKey ≤ range.upperKey
        rcases hru with ⟨-, hru⟩ | ⟨hru, hpage⟩
        · exact hru ▸ hbound.trans hle
        · rcases hbu with ⟨hempty, -⟩ | ⟨hbu, -⟩
          · rw [hempty] at hpage
            exact absurd hpage (List.not_lt_nil _)
          · rw [hbu, hru]
            exact min_le_min hle le_rfl
    · refine .inr (hcontains hmono ?_ ?_)
      · rcases hbu with ⟨-, hbu⟩ | ⟨hbu, -⟩
        · rw [hrl, hbu]
          exact hne.trans_le hinside
        · rcases hru with ⟨hempty, -⟩ | ⟨-, hpage⟩
          · rcases pageRange_desc hdesc (by exact ha) hback with ⟨-, ⟨-, hbu'⟩ | ⟨-, hpage⟩⟩
            · rw [hrl, hbu']
              exact hne.trans_le hinside
            · rw [hempty] at hpage
              exact absurd hpage (List.not_lt_nil _)
          · rw [hrl, hbu]
            exact lt_min (hne.trans_le hinside) hpage
      · rcases hbu with ⟨hempty, hbu⟩ | ⟨hbu, hpage⟩ <;> rcases hru with ⟨hempty', hru⟩ | ⟨hru, hpage'⟩
        · rw [hru, hbu]
          exact hinside
        · rw [hempty] at hpage'
          exact absurd hpage' (List.not_lt_nil _)
        · rw [hempty'] at hpage
          exact absurd hpage (List.not_lt_nil _)
        · rw [hru, hbu]
          exact min_le_min hinside le_rfl

/-- The last range kept so far is the cut of a span that precedes those to come. -/
structure BackPrecedes (query : MojDbQuery) (ranges : List MojDbKeyRange)
    (spans : List (MojDbKey × MojDbKey)) : Prop where
  apart : ranges.Pairwise (Behind query.desc)
  back : ∀ range, ranges.getLast? = some range → ∃ a : MojDbKey × MojDbKey, a.2 ≠ [] ∧
    pageRange query ⟨a.1, a.2, 0⟩ = some range ∧ ∀ b ∈ spans, Precedes a b

theorem addRange_apart {ranges : List MojDbKeyRange} {span : MojDbKey × MojDbKey}
    {rest : List (MojDbKey × MojDbKey)} (hspan : span.2 ≠ []) (hrest : ∀ b ∈ rest, Precedes span b)
    (h : BackPrecedes query ranges (span :: rest)) :
    BackPrecedes query (addRange query ranges span.1 span.2) rest := by
  have hkeep : BackPrecedes query ranges rest :=
    ⟨h.apart, fun range hr => (h.back range hr).imp fun a ⟨ha, hcut, hprec⟩ =>
      ⟨ha, hcut, fun b hb => hprec b (by simp [hb])⟩⟩
  unfold addRange
  cases hpage : pageRange query ⟨span.1, span.2, 0⟩ with
  | none => exact hkeep
  | some range =>
    dsimp only
    cases hback : ranges.getLast? with
    | none =>
      refine ⟨List.pairwise_singleton _ _, fun r hr => ⟨span, hspan, ?_, hrest⟩⟩
      obtain rfl := Option.some.inj hr
      exact hpage
    | some back =>
      dsimp only
      split_ifs with hinside
      · exact hkeep
      · obtain ⟨a, ha, hcut, hprec⟩ := h.back back hback
        obtain ⟨hlow, hsplit⟩ := cut_of_precedes (hprec span (by simp)) ha hspan hcut hpage
        have hapart : Behind query.desc back range := hsplit.resolve_right hinside
        obtain ⟨init, rfl⟩ : ∃ init, ranges = init ++ [back] :=
          ⟨ranges.dropLast, (List.dropLast_append_getLast? back hback).symm⟩
        constructor
        · refine List.pairwise_append.mpr ⟨h.apart, List.pairwise_singleton _ _, ?_⟩
          intro r hr r' hr'
          obtain rfl := List.mem_singleton.mp hr'
          rcases List.mem_append.mp hr with hr | hr
          · have hr := (List.pairwise_append.mp h.apart).2.2 r hr back (by simp)
            exact ⟨le_trans hr.apart hlow, hr.start_le.trans hapart.start_le⟩
          · obtain rfl := List.mem_singleton.mp hr
            exact hapart
        · intro r hr
          rw [List.getLast?_concat] at hr
          obtain rfl := Option.some.inj hr
          exact ⟨span, hspan, hpage, hrest⟩

theorem foldl_addRange_apart {spans : List (MojDbKey × MojDbKey)} (hne : ∀ span ∈ spans, span.2 ≠ [])
    (hprec : spans.Pairwise Precedes) {ranges : List MojDbKeyRange}
    (h : BackPrecedes query ranges spans) :
    (spans.foldl (fun ranges span => addRange query ranges span.1 span.2) ranges).Pairwise (Behind query.desc) := by
  induction spans generalizing ranges with
  | nil => exact h.apart
  | cons span spans ih =>
    obtain ⟨hspan, hspans⟩ := List.pairwise_cons.mp hprec
    exact ih (fun b hb => hne b (by simp [hb])) hspans (addRange_apart (hne span (by simp)) hspan h)

/-! ## The spans of the combinations -/

/-- Keys that are not prefixes of each other stay apart behind their prefixes. -/
theorem increment_le_of_lt {k k' : MojDbKey} (hk : MojDbKey.increment k ≠ []) (hlt : k < k')
    (hpre : ¬ k <+: k') : MojDbKey.increment k ≤ k' := by
  rw [← not_lt, MojDbKey.lt_increment_iff hk]
  rintro (h | h)
  exacts [h.asymm hlt, hpre h]

theorem increment_le_of_isPrefix {u v : MojDbKey} (hu : MojDbKey.increment u ≠ [])
    (hv : MojDbKey.increment v ≠ []) (h : u <+: v) : MojDbKey.increment v ≤ MojDbKey.increment u := by
  have hlt : ∀ {w}, u <+: w → w < MojDbKey.increment u :=
    fun hw => (MojDbKey.lt_increment_iff hu).mpr (.inr hw)
  rw [← not_lt, MojDbKey.lt_increment_iff hv]
  rintro (hv' | hv')
  · exact hv'.asymm (hlt h)
  · exact (hlt (h.trans hv')).false

theorem lt_increment_self {k : MojDbKey} (hk : MojDbKey.increment k ≠ []) : k < MojDbKey.increment k :=
  (MojDbKey.lt_increment_iff hk).mpr (.inr (List.prefix_refl k))

theorem trimPrefix_prefix_trimPrefix {k k' : MojDbKey} (hlt : k < k') (h : trimPrefix k <+: k') :
    trimPrefix k <+: trimPrefix k' := by
  by_cases hlast : k'.getLast? = some 0
  · have hk' : k' = trimPrefix k' ++ [0] := by
      rw [trimPrefix, if_pos hlast]
      exact (List.dropLast_append_getLast? 0 hlast).symm
    rw [hk'] at h
    rcases List.prefix_concat_iff.mp h with he | hpre
    · rw [← hk'] at he
      have hle : k' ≤ k := he ▸ le_of_isPrefix (WhereClause.trimPrefix_isPrefix k)
      exact absurd hlt hle.not_gt
    · exact hpre
  · have hk' : trimPrefix k' = k' := if_neg hlast
    rwa [hk']

/-- Prefix ranges are apart, or the range of the longer prefix is inside that of the shorter. -/
theorem precedes_of_trimPrefix {k k' : MojDbKey} (hk : MojDbKey.increment (trimPrefix k) ≠ [])
    (hk' : MojDbKey.increment (trimPrefix k') ≠ []) (hlt : k < k') :
    Precedes (k, MojDbKey.increment (trimPrefix k)) (k', MojDbKey.increment (trimPrefix k')) := by
  refine ⟨hlt.le, ?_⟩
  by_cases hpre : trimPrefix k <+: k'
  · refine .inr ⟨?_, ?_⟩
    · exact (MojDbKey.lt_increment_iff hk').mpr (.inr (WhereClause.trimPrefix_isPrefix k'))
    · exact increment_le_of_isPrefix hk hk' (trimPrefix_prefix_trimPrefix hlt hpre)
  · have hapart : MojDbKey.increment (trimPrefix k) ≤ k' := by
      rw [← not_lt, MojDbKey.lt_increment_iff hk]
      rintro (h | h)
      · exact (h.trans_le (le_of_isPrefix (WhereClause.trimPrefix_isPrefix k))).asymm hlt
      · exact hpre h
    refine .inl ⟨hapart, hapart.trans ?_⟩
    exact ((MojDbKey.lt_increment_iff hk').mpr (.inr (WhereClause.trimPrefix_isPrefix k'))).le

section LastClause

variable {text : MojDbText} {stack : List KeySet} {c : WhereClause} {last : Option WhereClause}

/-- The spans of an inequality lie behind its combination of equal values, one behind the other. -/
theorem spans_ne_bounds (hop : c.lowerOp ≠ .opEq ∧ c.lowerOp ≠ .opPrefix) {p : MojDbKey}
    (hp : MojDbKey.increment p ≠ []) :
    (spans (some c) (p ++ (c.operand text c.lowerVal).toBytes, p ++ (upperOperand text c).toBytes,
        p)).Pairwise Precedes ∧
      ∀ span ∈ spans (some c) (p ++ (c.operand text c.lowerVal).toBytes,
        p ++ (upperOperand text c).toBytes, p), p ≤ span.1 ∧
        span.1 ≤ MojDbKey.increment p ∧ p ≤ span.2 ∧ span.2 ≤ MojDbKey.increment p := by
  have hself : ∀ x, p ≤ p ++ x := fun x => le_of_isPrefix (List.prefix_append p x)
  have hbehind : ∀ x, p ++ x ≤ MojDbKey.increment p := fun x =>
    ((MojDbKey.lt_increment_iff hp).mpr (.inr (List.prefix_append p x))).le
  have hupper : upperKey text c p ≤ MojDbKey.increment p := by
    have hinc := MojDbKey.increment_toBytes_ne_nil (upperOperand text c)
    unfold upperKey
    split
    · exact le_refl _
    · rw [MojDbKey.increment_append hinc]
      exact hbehind _
    · exact hbehind _
  have hupper' : p ≤ upperKey text c p := by
    have hinc := MojDbKey.increment_toBytes_ne_nil (upperOperand text c)
    unfold upperKey
    split
    · exact (lt_increment_self hp).le
    · rw [MojDbKey.increment_append hinc]
      exact hself _
    · exact hself _
  have hlower := lt_increment_self (MojDbKey.increment_toBytes_ne_nil (c.operand text c.lowerVal))
  have hle : p ≤ MojDbKey.increment p := (lt_increment_self hp).le
  rw [spans_ne_eq hop]
  cases c.lowerOp <;>
    simp [Precedes, hself, hbehind, hupper, hupper', hle, append_le_append_iff, hlower.le]

/-- **The spans of all combinations are in order.** -/
theorem combinations_precede (hstack : stack ≠ [])
    (hcoded : ∀ vals ∈ stack, ∀ part ∈ vals, ∃ o : MojObject, part = o.toBytes)
    (hinc : ∀ p ∈ MojDbKeyBuilder.keys stack, MojDbKey.increment p ≠ []) :
    ((pushClause text ⟨stack, stack, .empty, last⟩ c).combinations.flatMap
      (spans (some c))).Pairwise Precedes := by
  by_cases hop : c.lowerOp = .opEq ∨ c.lowerOp = .opPrefix
  · have hcoded' : ∀ vals ∈ stack ++ [lowerSet text c], ∀ part ∈ vals,
        ∃ o : MojObject, part = o.toBytes := by
      intro vals hvals part hpart
      rcases List.mem_append.mp hvals with hvals | hvals
      · exact hcoded vals hvals part hpart
      · obtain rfl := List.mem_singleton.mp hvals
        obtain ⟨alt, -, rfl⟩ := mem_lowerSet.mp hpart
        exact ⟨alt, rfl⟩
    rw [combinations_eq hop, List.flatMap_map, List.pairwise_flatMap]
    refine ⟨fun k _ => ?_, (MojDbKeyBuilder.keys _).sorted.imp_of_mem fun {k k'} hk hk' hlt => ?_⟩
    · rcases hop with hop | hop <;> simp [spans, hop]
    · obtain ⟨p, -, alt, -, rfl⟩ := (mem_lower_keys hstack).mp hk
      obtain ⟨p', -, alt', -, rfl⟩ := (mem_lower_keys hstack).mp hk'
      have hne := MojDbKey.increment_toBytes_ne_nil alt
      rcases hop with hop | hop
      · have hapart := increment_le_of_lt
          (by rw [MojDbKey.increment_append hne]; exact List.append_ne_nil_of_right_ne_nil p hne) hlt
          (fun hpre => hlt.ne (MojDbKeyBuilder.keys_prefix_free hcoded' hk hk' hpre))
        have hself := (lt_increment_self (k := p' ++ alt'.toBytes) (by
          rw [MojDbKey.increment_append (MojDbKey.increment_toBytes_ne_nil alt')]
          exact List.append_ne_nil_of_right_ne_nil p' (MojDbKey.increment_toBytes_ne_nil alt'))).le
        simpa [spans, hop, Precedes] using ⟨hlt.le, Or.inl ⟨hapart, hapart.trans hself⟩⟩
      · have htrim : ∀ (q : MojDbKey) (o : MojObject),
            MojDbKey.increment (trimPrefix (q ++ o.toBytes)) ≠ [] := by
          intro q o
          have htne := WhereClause.increment_trimPrefix_ne_nil o
          rw [trimPrefix_append (toBytes_ne_nil o), MojDbKey.increment_append htne]
          exact List.append_ne_nil_of_right_ne_nil q htne
        simpa [spans, hop] using precedes_of_trimPrefix (htrim p alt) (htrim p' alt') hlt
  · by_cases hsub : c.lowerOp = .opSubString
    · have hnone : spans (some c) = fun _ => [] := funext fun keys => by simp [spans, hsub]
      simp [hnone, List.flatMap_eq_nil_iff.mpr]
    · rw [combinations_ne hstack hcoded (not_or.mp hop) hsub, List.flatMap_map, List.pairwise_flatMap]
      refine ⟨fun p hp => (spans_ne_bounds (not_or.mp hop) (hinc p hp)).1,
        (MojDbKeyBuilder.keys stack).sorted.imp_of_mem fun {p p'} hp hp' hlt => ?_⟩
      intro a ha b hb
      obtain ⟨-, halow, -, haup⟩ := (spans_ne_bounds (not_or.mp hop) (hinc p hp)).2 a ha
      obtain ⟨hblow, -, hbup, -⟩ := (spans_ne_bounds (not_or.mp hop) (hinc p' hp')).2 b hb
      have hnotpre : ¬ p <+: p' := fun hpre =>
        hlt.ne (MojDbKeyBuilder.keys_prefix_free hcoded hp hp' hpre)
      have hstep := increment_le_of_lt (hinc p hp) hlt hnotpre
      exact ⟨halow.trans (hstep.trans hblow), .inl ⟨haup.trans (hstep.trans hblow), haup.trans (hstep.trans hbup)⟩⟩

end LastClause

/-- **The ranges of a plan are apart**, each behind the one before it. -/
theorem buildRanges_ordered {index : MojDbIndex} {front back : List MojDbExtractor}
    {clauses : List WhereClause} (h : Answers index query.whereClauses front back clauses) :
    (buildRanges index query).Pairwise (Behind query.desc) ∧ Bounded (buildRanges index query) := by
  -- both hold of what is added from spans that are in order and have an upper key
  have hfold : ∀ {spans : List (MojDbKey × MojDbKey)}, (∀ span ∈ spans, span.2 ≠ []) →
      spans.Pairwise Precedes →
      (spans.foldl (fun ranges span => addRange query ranges span.1 span.2) []).Pairwise (Behind query.desc) ∧
        Bounded (spans.foldl (fun ranges span => addRange query ranges span.1 span.2) []) := by
    intro spans hne hprec
    exact ⟨foldl_addRange_apart hne hprec ⟨List.Pairwise.nil, by simp⟩,
      (foldl_addRange_spec hne (by simp [Bounded])).1⟩
  rcases clauses.eq_nil_or_concat' with rfl | ⟨init, c, rfl⟩
  · have hid : MojDbKey.increment index.idKey ≠ [] := by simpa using increment_idKey_append index []
    rw [buildRanges_eq h (b := ⟨[index.idSet], [index.idSet], .empty, none⟩) rfl, rangesFromKeySets_eq]
    have hcomb := noClause_combinations index
    rw [Bounds.combinations] at hcomb
    rw [hcomb]
    exact hfold (by simp [spans, hid]) (by simp [spans])
  · have hinit : ∀ d ∈ init, d.lowerOp = .opEq := by simpa using h.eq_init
    obtain ⟨last, hb⟩ := foldl_pushClause_concat index hinit c
    rw [buildRanges_eq h hb, rangesFromKeySets_eq]
    obtain ⟨hne, -⟩ := @combinations_iff index.text (eqStack index init) c last
      (List.cons_ne_nil _ _) eqStack_coded eqStack_increment
    refine hfold (fun span hspan => ?_)
      (combinations_precede (List.cons_ne_nil _ _) eqStack_coded eqStack_increment)
    obtain ⟨keys, hkeys, hspan⟩ := List.mem_flatMap.mp hspan
    exact hne keys hkeys span hspan

end MojDbQueryPlan

end Db8
