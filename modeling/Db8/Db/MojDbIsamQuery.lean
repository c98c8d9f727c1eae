import Db8.Db.MojDbQueryPlan
import Db8.Lib.CursorPos

/-!
# Db.MojDbIsamQuery

A find query on the storage: the walk over the ranges of its plan with an iterator over the index.

* `Source`        — what the query runs on: the engine, the keys of the index and the plan.
* `seek`, `getKey` — one call; the position is kept from range to range where it can be.
* `rest`          — the keys the query has yet to return.
* `getKey_spec`   — a call returns the first of them.
* `keysOf_eq_take` — successive calls return them one after the other, up to the limit.
-/

namespace Db8

open Lib
open Lib.Toward (on finish)
open MojDbQueryPlan (Covered Bounded)

namespace MojDbIsamQuery

inductive Engine where
  | leveldb | sandwich
  deriving DecidableEq

inductive State where
  | seek | next
  deriving DecidableEq

/-- The index under the iterator and the plan. Each key begins with the id of its index. -/
structure Source where
  engine : Engine
  keys : KeySet
  ranges : List MojDbKeyRange
  desc : Bool
  limit : Nat
  ignoreInactiveShards : Bool
  /-- The keys of objects in an inactive shard. -/
  checkShard : MojDbKey → Bool
  keys_ne_nil : ∀ key ∈ keys, key ≠ []

end MojDbIsamQuery

open MojDbIsamQuery (Source State)

/-- The query as it runs: `iter` are the ranges from the current one on, `keyData` is the current key. -/
structure MojDbIsamQuery where
  iter : List MojDbKeyRange
  state : State
  pos : CursorPos MojDbKey
  keyData : MojDbKey
  count : Nat
  endKey : MojDbKey

namespace MojDbIsamQuery

def open_ (src : Source) : MojDbIsamQuery := ⟨src.ranges, .seek, .beforeFirst, [], 0, []⟩

variable (src : Source) (q : MojDbIsamQuery)

/-- The key under the iterator, if there is one. -/
def readEntry (pos : CursorPos MojDbKey) : Bool × MojDbIsamQuery :=
  match pos with
  | .key key => (true, { q with pos, keyData := key })
  | _ => (false, { q with pos })

/-- The next key, or the previous one if descending. -/
def next : Bool × MojDbIsamQuery := q.readEntry (src.keys.after (!src.desc) q.pos)

/-- If descending, the first result is skipped: it is outside of the range. -/
def seekImpl (key : MojDbKey) : Bool × MojDbIsamQuery :=
  if key = [] then q.readEntry (src.keys.toEdge (!src.desc))
  else
    let pos := src.keys.atOrAfter true (.key key)
    match src.engine with
    | .leveldb =>
      let read := { q with keyData := key }.readEntry pos
      if src.desc then read.2.next src else read
    | .sandwich =>
      if src.desc then
        match pos with
        | .key _ => { q with pos }.next src
        | _ => q.readEntry (src.keys.toEdge false)
      else q.readEntry pos

/-- A current key that is not before the first key of the range is used instead of seeking. -/
def seek (range : MojDbKeyRange) : Bool × MojDbIsamQuery :=
  let key := range.key src.desc
  let q := { q with state := .next }
  if q.keyData ≠ [] ∧ decide (q.keyData < key) = src.desc then (true, q) else q.seekImpl src key

/-- The current key is still in the range. -/
def match_ (range : MojDbKeyRange) : Bool :=
  let key := range.key (!src.desc)
  key = [] || decide (key ≤ q.keyData) = src.desc

def limitEnforced : Bool := q.count ≥ src.limit

def get (range : MojDbKeyRange) : Bool × MojDbIsamQuery := if q.state = .seek then q.seek src range else q.next src

/-- The loop of `getKey`: the key with its group, and the query after the call. -/
def getKeyLoop : Nat → MojDbIsamQuery → Option (MojDbKey × Nat) × MojDbIsamQuery
  | 0, q => (none, q)
  | fuel + 1, q =>
    match q.iter with
    | [] => (none, q)
    | range :: rest =>
      if q.limitEnforced src then (none, q)
      else
        let (keyFound, q) := q.get src range
        if !keyFound then (none, { q with iter := [] })
        else if q.match_ src range then
          if src.ignoreInactiveShards && src.checkShard q.keyData then getKeyLoop fuel { q with state := .next }
          else (some (q.keyData, range.group), q)
        else getKeyLoop fuel { q with state := .seek, iter := rest }

/-- Each round of the loop passes a range or a key. -/
def getKey : Option (MojDbKey × Nat) × MojDbIsamQuery := getKeyLoop src (q.iter.length + src.keys.size + 1) q

/-- The end key is one past the last one if ascending. -/
def saveEndKey : MojDbIsamQuery :=
  { q with endKey := if src.desc then q.keyData else MojDbKey.increment q.keyData }

def incrementCount : MojDbIsamQuery :=
  let q := { q with count := q.count + 1 }
  if q.limitEnforced src then q.saveEndKey src else q

/-- The keys that successive calls return; each call says whether its caller counts the key. -/
def keysOf (src : Source) : List Bool → MojDbIsamQuery → List MojDbKey
  | [], _ => []
  | counted :: calls, q =>
    match q.getKey src with
    | (none, q) => keysOf src calls q
    | (some (key, _), q) => key :: keysOf src calls (if counted then q.incrementCount src else q)

/-- How many calls there are before the limit is enforced. -/
def allowed : Nat → List Bool → Nat
  | 0, _ => 0
  | _, [] => 0
  | n + 1, true :: calls => allowed n calls + 1
  | n + 1, false :: calls => allowed (n + 1) calls + 1

/-! ## Ranges in the direction of the query -/

namespace Source

variable (src : Source) (range : MojDbKeyRange)

/-- The key is not before the range. -/
def From (key : MojDbKey) : Prop := if src.desc then key < range.upperKey else range.lowerKey ≤ key

/-- The key is not past the range. -/
def Upto (key : MojDbKey) : Prop := if src.desc then range.lowerKey ≤ key else key < range.upperKey

instance (key : MojDbKey) : Decidable (src.From range key) :=
  inferInstanceAs (Decidable (if src.desc then key < range.upperKey else range.lowerKey ≤ key))

/-- The keys are in the order in which the query passes them. -/
abbrev Le (j k : MojDbKey) : Prop := on (!src.desc) (.key j) ≤ on (!src.desc) (.key k)

/-- The ranges have upper bounds, and none begins before one that comes earlier. -/
structure Ordered (src : Source) (ranges : List MojDbKeyRange) : Prop where
  bounded : Bounded ranges
  pairwise : ranges.Pairwise fun r t => ∀ key, src.From t key → src.From r key

variable {src range}

theorem le_iff {j k : MojDbKey} : src.Le j k ↔ if src.desc then k ≤ j else j ≤ k := by
  unfold Le
  cases src.desc with
  | false => exact CursorPos.key_le_key
  | true => exact CursorPos.key_le_key

theorem From.mono {j k : MojDbKey} (h : src.From range j) (hle : src.Le j k) : src.From range k := by
  rw [le_iff] at hle
  unfold From at h ⊢
  split_ifs at h hle ⊢
  · exact hle.trans_lt h
  · exact h.trans hle

theorem Upto.anti {j k : MojDbKey} (h : src.Upto range k) (hle : src.Le j k) : src.Upto range j := by
  rw [le_iff] at hle
  unfold Upto at h ⊢
  split_ifs at h hle ⊢
  · exact h.trans hle
  · exact hle.trans_lt h

theorem contains_iff (hbound : range.upperKey ≠ []) {key : MojDbKey} :
    range.contains key = true ↔ src.From range key ∧ src.Upto range key := by
  rw [MojDbQueryPlan.contains_iff_of_bounded hbound, From, Upto]
  split_ifs
  · exact and_comm
  · exact Iff.rfl

theorem Ordered.tail {ranges : List MojDbKeyRange} (h : src.Ordered (range :: ranges)) : src.Ordered ranges :=
  ⟨fun r hr => h.bounded r (List.mem_cons_of_mem range hr), (List.pairwise_cons.mp h.pairwise).2⟩

/-- What is in one of the ranges is not before the first of them. -/
theorem Ordered.from_of_covered {ranges : List MojDbKeyRange} (h : src.Ordered (range :: ranges)) {key : MojDbKey}
    (hcovered : Covered (range :: ranges) key) : src.From range key := by
  obtain ⟨r, hr, hcontains⟩ := hcovered
  have hfrom := ((@contains_iff src _ (h.bounded r hr) _).mp hcontains).1
  cases List.mem_cons.mp hr with
  | inl he => exact he ▸ hfrom
  | inr hmem => exact (List.pairwise_cons.mp h.pairwise).1 r hmem key hfrom

end Source

theorem covered_cons {range : MojDbKeyRange} {ranges : List MojDbKeyRange} {key : MojDbKey} :
    Covered (range :: ranges) key ↔ range.contains key = true ∨ Covered ranges key := by
  simp [Covered]

/-! ## One key -/

variable {src q}

/-- The keys the query has not passed. -/
def Ahead (src : Source) (q : MojDbIsamQuery) (key : MojDbKey) : Prop :=
  match q.state with
  | .next => on (!src.desc) q.pos < on (!src.desc) (.key key)
  | .seek => q.keyData = [] ∨ on (!src.desc) q.pos ≤ on (!src.desc) (.key key)

instance (key : MojDbKey) : Decidable (Ahead src q key) := by
  unfold Ahead
  cases q.state with
  | next => exact inferInstance
  | seek => exact inferInstance

structure Ok (src : Source) (q : MojDbIsamQuery) : Prop where
  ordered : src.Ordered q.iter
  /-- The iterator stands on the current key. -/
  at_key : q.state = .seek → q.keyData ≠ [] → q.pos = .key q.keyData ∧ q.keyData ∈ src.keys
  /-- The key returned last was in the range. -/
  in_range : ∀ range ∈ q.iter.head?, q.state = .next → ∃ key, q.pos = .key key ∧ src.From range key

/-- Either there is no key left that is not before the range, or the query stands on the first of them. -/
def Arrives (src : Source) (q : MojDbIsamQuery) (range : MojDbKeyRange) (r : Bool × MojDbIsamQuery) : Prop :=
  (r.1 = false ∧ r.2.state = .next ∧ r.2.count = q.count ∧
    ∀ key ∈ src.keys, ¬(Ahead src q key ∧ src.From range key)) ∨
  ∃ key ∈ src.keys, r = (true, { q with state := .next, pos := .key key, keyData := key }) ∧ src.From range key ∧
    ∀ x ∈ src.keys, Ahead src q x ∧ src.From range x ↔ src.Le key x

/-- The first key with a property that later keys have as well. -/
theorem arrives_firstWith {range : MojDbKeyRange} {q' : MojDbIsamQuery}
    (hq' : { q' with state := .next, pos := q.pos, keyData := q.keyData } = { q with state := .next }) {c : MojDbKey → Bool}
    (hc : ∀ key ∈ src.keys, c key = true ↔ Ahead src q key ∧ src.From range key)
    (hup : ∀ j ∈ src.keys, ∀ k ∈ src.keys, c j = true → src.Le j k → c k = true)
    (hstate : q'.state = .next) : Arrives src q range (q'.readEntry (src.keys.firstWith (!src.desc) c)) := by
  simp only [MojDbIsamQuery.mk.injEq] at hq'
  obtain ⟨hiter, -, -, -, hcount, hend⟩ := hq'
  cases src.keys.firstWith_cases (!src.desc) c with
  | inl hnone =>
    obtain ⟨hpos, hnone⟩ := hnone
    have hread : q'.readEntry (src.keys.firstWith (!src.desc) c) = (false, { q' with pos := finish (!src.desc) }) := by
      rw [hpos]
      cases src.desc <;> rfl
    refine .inl ⟨by rw [hread], by rw [hread]; exact hstate, by rw [hread]; exact hcount, fun key hkey h => ?_⟩
    rw [← hc key hkey, hnone key hkey] at h
    cases h
  | inr hfirst =>
    obtain ⟨k, hk, hpos, hck, hle⟩ := hfirst
    refine .inr ⟨k, hk, ?_, ((hc k hk).mp hck).2, fun x hx => ?_⟩
    · rw [hpos]
      simp only [readEntry, hstate, hiter, hcount, hend]
    · rw [← hc x hx]
      constructor
      · exact hle x hx
      · exact hup k hk x hx hck

/-- The last key below a bound is one step back from the first key that is not. -/
theorem after_atOrAfter (keys : KeySet) (bound : MojDbKey) :
    keys.after false (keys.atOrAfter true (.key bound)) = keys.firstWith false fun key => key < bound := by
  refine keys.firstWith_congr false fun key hkey => ?_
  rw [decide_eq_decide]
  change CursorPos.key key < keys.atOrAfter true (.key bound) ↔ key < bound
  have hge : ∀ key : MojDbKey, CursorPos.key bound ≤ .key key ↔ bound ≤ key := fun key => CursorPos.key_le_key
  cases keys.firstWith_cases true fun key => on true (.key bound) ≤ on true (.key key) with
  | inl hnone =>
    obtain ⟨hpos, hnone⟩ := hnone
    rw [SortedSet.atOrAfter, hpos]
    have hlt : ¬CursorPos.key bound ≤ .key key := of_decide_eq_false (hnone key hkey)
    rw [hge, not_le] at hlt
    refine iff_of_true (lt_top_iff_ne_top.mpr ?_) hlt
    rw [CursorPos.top_def]
    nofun
  | inr hfirst =>
    obtain ⟨k, -, hpos, hk, hle⟩ := hfirst
    rw [SortedSet.atOrAfter, hpos, CursorPos.key_lt_key]
    have hbound : bound ≤ k := (hge k).mp (of_decide_eq_true hk)
    constructor
    · intro hlt
      by_contra hnot
      have hkey : k ≤ key := CursorPos.key_le_key.mp (hle key hkey (decide_eq_true ((hge key).mpr (not_lt.mp hnot))))
      exact hlt.not_ge hkey
    · intro hlt
      exact hlt.trans_le hbound

/-- Without a key at or after the bound, all keys are below it. -/
theorem toEdge_of_not_key {keys : KeySet} {bound : MojDbKey} (h : ∀ key, keys.atOrAfter true (.key bound) ≠ .key key) :
    keys.toEdge false = keys.firstWith false fun key => key < bound := by
  refine keys.firstWith_congr false fun key hkey => ?_
  cases keys.firstWith_cases true fun key => on true (.key bound) ≤ on true (.key key) with
  | inl hnone =>
    have hlt : ¬CursorPos.key bound ≤ .key key := of_decide_eq_false (hnone.2 key hkey)
    rw [CursorPos.key_le_key, not_le] at hlt
    exact (decide_eq_true hlt).symm
  | inr hfirst =>
    obtain ⟨k, -, hpos, -⟩ := hfirst
    exact absurd hpos (h k)

/-- Both engines go to the first key that is not before the range. -/
theorem seekImpl_eq {range : MojDbKeyRange} (hbound : range.upperKey ≠ []) :
    ∃ q' : MojDbIsamQuery, { q' with pos := q.pos, keyData := q.keyData } = q ∧
      q.seekImpl src (range.key src.desc) =
        q'.readEntry (src.keys.firstWith (!src.desc) fun key => src.From range key) := by
  unfold seekImpl MojDbIsamQuery.next
  cases hdesc : src.desc with
  | false =>
    have hfrom : ∀ key, decide (range.lowerKey ≤ key) = decide (src.From range key) := by
      intro key
      simp [Source.From, hdesc]
    have hseek : src.keys.atOrAfter true (.key range.lowerKey) =
        src.keys.firstWith true fun key => src.From range key := by
      refine src.keys.firstWith_congr true fun key _ => ?_
      rw [← hfrom, decide_eq_decide]
      exact CursorPos.key_le_key
    have hedge : range.lowerKey = [] → src.keys.toEdge true = src.keys.firstWith true fun key => src.From range key := by
      intro hnil
      refine src.keys.firstWith_congr true fun key _ => ?_
      rw [← hfrom, hnil]
      exact (decide_eq_true (nil_le key)).symm
    simp only [MojDbKeyRange.key, Bool.false_eq_true, if_false, Bool.not_false, hseek]
    split_ifs with hnil
    · exact ⟨q, rfl, by rw [hedge hnil]⟩
    · cases src.engine with
      | leveldb => exact ⟨{ q with keyData := range.lowerKey }, rfl, rfl⟩
      | sandwich => exact ⟨q, rfl, rfl⟩
  | true =>
    have hfrom : ∀ key, decide (key < range.upperKey) = decide (src.From range key) := by
      intro key
      simp [Source.From, hdesc]
    have hprev : src.keys.after false (src.keys.atOrAfter true (.key range.upperKey)) =
        src.keys.firstWith false fun key => src.From range key := by
      rw [after_atOrAfter]
      exact src.keys.firstWith_congr false fun key _ => hfrom key
    simp only [MojDbKeyRange.key, if_true, if_neg hbound, Bool.not_true]
    cases src.engine with
    | leveldb =>
      cases hpos : src.keys.atOrAfter true (.key range.upperKey) with
      | key k =>
        rw [hpos] at hprev
        exact ⟨{ q with pos := .key k, keyData := k }, rfl, by simp only [readEntry, hprev]⟩
      | beforeFirst =>
        rw [hpos] at hprev
        exact ⟨{ q with pos := .beforeFirst, keyData := range.upperKey }, rfl, by simp only [readEntry, hprev]⟩
      | afterLast =>
        rw [hpos] at hprev
        exact ⟨{ q with pos := .afterLast, keyData := range.upperKey }, rfl, by simp only [readEntry, hprev]⟩
    | sandwich =>
      cases hpos : src.keys.atOrAfter true (.key range.upperKey) with
      | key k =>
        rw [hpos] at hprev
        exact ⟨{ q with pos := .key k }, rfl, by simp only [hprev]⟩
      | beforeFirst | afterLast =>
        have hlast : src.keys.toEdge false = src.keys.firstWith false fun key => src.From range key := by
          rw [@toEdge_of_not_key _ range.upperKey fun key => by simp [hpos]]
          exact src.keys.firstWith_congr false fun key _ => hfrom key
        exact ⟨q, rfl, by simp only [hlast]⟩

theorem get_arrives {range : MojDbKeyRange} {ranges : List MojDbKeyRange} (h : Ok src q) (hiter : q.iter = range :: ranges) :
    Arrives src q range (q.get src range) := by
  have hordered := h.ordered
  rw [hiter] at hordered
  have hbound : range.upperKey ≠ [] := hordered.bounded range List.mem_cons_self
  unfold get
  cases hstate : q.state with
  | next =>
    obtain ⟨k, hpos, hfrom⟩ := h.in_range range (by rw [hiter]; rfl) hstate
    rw [if_neg nofun, MojDbIsamQuery.next, SortedSet.after]
    refine arrives_firstWith rfl (fun key _ => ?_) (fun i _ j _ hi hle => ?_) hstate
    · rw [decide_eq_true_eq, Ahead, hstate, hpos]
      exact ⟨fun hlt => ⟨hlt, hfrom.mono hlt.le⟩, And.left⟩
    · rw [decide_eq_true_eq] at hi ⊢
      exact hi.trans_le hle
  | seek =>
    rw [if_pos rfl]
    unfold seek
    dsimp only
    have hreuse : decide (q.keyData < range.key src.desc) = src.desc ↔ src.From range q.keyData := by
      unfold MojDbKeyRange.key Source.From
      cases src.desc with
      | false => simp
      | true => simp
    by_cases hkeep : q.keyData ≠ [] ∧ src.From range q.keyData
    · rw [if_pos ⟨hkeep.1, hreuse.mpr hkeep.2⟩]
      obtain ⟨hpos, hmem⟩ := h.at_key hstate hkeep.1
      refine .inr ⟨q.keyData, hmem, by rw [← hpos], hkeep.2, fun x _ => ?_⟩
      rw [Ahead, hstate, hpos]
      constructor
      · intro hx
        exact hx.1.resolve_left hkeep.1
      · intro hle
        exact ⟨.inr hle, hkeep.2.mono hle⟩
    · rw [if_neg fun hc => hkeep ⟨hc.1, hreuse.mp hc.2⟩]
      obtain ⟨q', hsame, hseek⟩ := @seekImpl_eq src { q with state := .next } _ hbound
      rw [hseek]
      have hq' : q'.state = .next := congrArg MojDbIsamQuery.state hsame
      refine arrives_firstWith ?_ (fun key hkey => ?_) (fun i _ j _ hi hle => ?_) hq'
      · rw [← hsame, hq']
      · rw [decide_eq_true_eq, Ahead, hstate]
        refine ⟨fun hfrom => ⟨?_, hfrom⟩, And.right⟩
        by_cases hnil : q.keyData = []
        · exact .inl hnil
        · -- a key before the current one would make that one be kept
          obtain ⟨hpos, -⟩ := h.at_key hstate hnil
          refine .inr (le_of_not_ge fun hle => hkeep ⟨hnil, hfrom.mono ?_⟩)
          rw [hpos] at hle
          exact hle
      · rw [decide_eq_true_eq] at hi ⊢
        exact hi.mono hle

theorem match_iff {range : MojDbKeyRange} (hbound : range.upperKey ≠ []) :
    q.match_ src range = true ↔ src.Upto range q.keyData := by
  unfold match_ MojDbKeyRange.key Source.Upto
  cases src.desc with
  | false => simp [hbound]
  | true =>
    simp only [Bool.not_true, Bool.false_eq_true, if_false, if_true, Bool.or_eq_true, decide_eq_true_eq]
    constructor
    · intro h
      cases h with
      | inl hnil =>
        rw [hnil]
        exact nil_le _
      | inr hle => exact hle
    · exact .inr

/-! ## The keys to come -/

instance (ranges : List MojDbKeyRange) (key : MojDbKey) : Decidable (Covered ranges key) :=
  inferInstanceAs (Decidable (∃ range ∈ ranges, range.contains key = true))

/-- The key is in one of the ranges, and not passed over for its shard. -/
def Wanted (src : Source) (ranges : List MojDbKeyRange) (key : MojDbKey) : Prop :=
  Covered ranges key ∧ ¬(src.ignoreInactiveShards = true ∧ src.checkShard key = true)

instance (ranges : List MojDbKeyRange) (key : MojDbKey) : Decidable (Wanted src ranges key) :=
  inferInstanceAs (Decidable (_ ∧ _))

/-- The keys the query has yet to return, in its order. -/
def rest (src : Source) (q : MojDbIsamQuery) : List MojDbKey :=
  (src.keys.inOrder (!src.desc)).filter fun key => Ahead src q key ∧ Wanted src q.iter key

def aheadKeys (src : Source) (q : MojDbIsamQuery) : List MojDbKey :=
  (src.keys.inOrder (!src.desc)).filter fun key => Ahead src q key

theorem length_filter_inOrder_le (src : Source) (p : MojDbKey → Bool) :
    ((src.keys.inOrder (!src.desc)).filter p).length ≤ src.keys.size := by
  refine (List.length_filter_le _ _).trans (le_of_eq ?_)
  unfold SortedSet.inOrder SortedSet.size
  cases src.desc with
  | false => rfl
  | true => exact List.length_reverse

theorem length_rest_le (src : Source) (q : MojDbIsamQuery) : (rest src q).length ≤ src.keys.size :=
  length_filter_inOrder_le src _

theorem rest_congr {q' : MojDbIsamQuery}
    (h : ∀ key ∈ src.keys, Ahead src q' key ∧ Wanted src q'.iter key ↔ Ahead src q key ∧ Wanted src q.iter key) :
    rest src q' = rest src q :=
  List.filter_congr fun key hkey => decide_eq_decide.mpr (h key (SortedSet.mem_inOrder.mp hkey))

theorem rest_eq_nil (h : ∀ key ∈ src.keys, ¬(Ahead src q key ∧ Wanted src q.iter key)) : rest src q = [] :=
  List.filter_eq_nil_iff.mpr fun key hkey => by simpa using h key (SortedSet.mem_inOrder.mp hkey)

section Arrived

variable {range : MojDbKeyRange} {ranges : List MojDbKeyRange} {k : MojDbKey}

/-- The query on the key it has arrived at. -/
def arrived (q : MojDbIsamQuery) (k : MojDbKey) : MojDbIsamQuery := { q with state := .next, pos := .key k, keyData := k }

/-- What is to come is at the key, or after it. -/
theorem ahead_wanted_iff (h : Ok src q) (hiter : q.iter = range :: ranges)
    (hfirst : ∀ x ∈ src.keys, Ahead src q x ∧ src.From range x ↔ src.Le k x) {x : MojDbKey} (hx : x ∈ src.keys) :
    Ahead src q x ∧ Wanted src q.iter x ↔ src.Le k x ∧ Wanted src q.iter x := by
  have hordered := h.ordered
  rw [hiter] at hordered ⊢
  rw [← hfirst x hx]
  constructor
  · intro hx
    exact ⟨⟨hx.1, hordered.from_of_covered hx.2.1⟩, hx.2⟩
  · intro hx
    exact ⟨hx.1.1, hx.2⟩

theorem rest_arrived (h : Ok src q) (hiter : q.iter = range :: ranges) (hk : k ∈ src.keys)
    (hfirst : ∀ x ∈ src.keys, Ahead src q x ∧ src.From range x ↔ src.Le k x) :
    rest src q = if Wanted src q.iter k then k :: rest src (arrived q k) else rest src (arrived q k) := by
  have hrest : rest src q = (src.keys.inOrder (!src.desc)).filter fun x => src.Le k x ∧ Wanted src q.iter x :=
    List.filter_congr fun x hx => decide_eq_decide.mpr (ahead_wanted_iff h hiter hfirst (SortedSet.mem_inOrder.mp hx))
  rw [hrest]
  split_ifs with hwanted
  · rw [SortedSet.filter_inOrder_eq_cons hk ⟨le_rfl, hwanted⟩ fun j _ hj => hj.1]
    refine congrArg (k :: ·) (List.filter_congr fun x _ => decide_eq_decide.mpr ?_)
    change (_ ∧ _) ∧ _ ↔ on (!src.desc) (.key k) < on (!src.desc) (.key x) ∧ Wanted src q.iter x
    constructor
    · intro hx
      exact ⟨hx.2, hx.1.2⟩
    · intro hx
      exact ⟨⟨hx.1.le, hx.2⟩, hx.1⟩
  · refine List.filter_congr fun x _ => decide_eq_decide.mpr ?_
    change _ ↔ on (!src.desc) (.key k) < on (!src.desc) (.key x) ∧ Wanted src q.iter x
    refine and_congr_left fun hx => ?_
    constructor
    · intro hle
      refine hle.lt_of_ne fun he => ?_
      rw [Lib.Toward.on_inj, CursorPos.key.injEq] at he
      exact hwanted (he ▸ hx)
    · exact le_of_lt

theorem length_filter_le_aheadKeys (hfirst : ∀ x ∈ src.keys, Ahead src q x ∧ src.From range x ↔ src.Le k x) :
    ((src.keys.inOrder (!src.desc)).filter fun x => src.Le k x).length ≤ (aheadKeys src q).length := by
  have hfilter : ((src.keys.inOrder (!src.desc)).filter fun x => src.Le k x) =
      (aheadKeys src q).filter fun x => src.Le k x := by
    rw [aheadKeys, List.filter_filter]
    refine List.filter_congr fun x hx => ?_
    rw [← Bool.decide_and, decide_eq_decide]
    have hahead := (hfirst x (SortedSet.mem_inOrder.mp hx)).mpr
    exact ⟨fun hle => ⟨hle, (hahead hle).1⟩, And.left⟩
  rw [hfilter]
  exact List.length_filter_le _ _

theorem length_aheadKeys_arrived (hk : k ∈ src.keys) (hfirst : ∀ x ∈ src.keys, Ahead src q x ∧ src.From range x ↔ src.Le k x) :
    (aheadKeys src (arrived q k)).length < (aheadKeys src q).length := by
  refine lt_of_lt_of_le ?_ (length_filter_le_aheadKeys hfirst)
  rw [SortedSet.filter_inOrder_eq_cons (P := fun x => src.Le k x) hk le_rfl fun j _ hj => hj, List.length_cons,
    Nat.lt_succ_iff]
  refine le_of_eq (congrArg List.length (List.filter_congr fun x _ => decide_eq_decide.mpr ?_))
  change on (!src.desc) (.key k) < on (!src.desc) (.key x) ↔ _
  exact ⟨fun hlt => ⟨hlt.le, hlt⟩, And.right⟩

theorem ok_arrived (h : Ok src q) (hiter : q.iter = range :: ranges) (hfrom : src.From range k) : Ok src (arrived q k) where
  ordered := h.ordered
  at_key := nofun
  in_range r hr _ := by
    have he : r = range := by
      change r ∈ q.iter.head? at hr
      rw [hiter, List.head?_cons, Option.mem_some_iff] at hr
      exact hr.symm
    exact ⟨k, rfl, he ▸ hfrom⟩

end Arrived

/-! ## Calls -/

/-- **One call** returns the first of the keys to come, unless the limit is enforced. By induction on the rounds of
the loop: each passes a range or a key. -/
theorem getKeyLoop_spec {fuel : Nat} (h : Ok src q) (hfuel : q.iter.length + (aheadKeys src q).length < fuel) :
    let r := getKeyLoop src fuel q
    Ok src r.2 ∧ r.2.count = q.count ∧
      (src.limit ≤ q.count → r.1 = none ∧ rest src r.2 = rest src q) ∧
      (q.count < src.limit → r.1.map Prod.fst = (rest src q).head? ∧ rest src r.2 = (rest src q).tail) := by
  induction fuel generalizing q with
  | zero => omega
  | succ fuel ih =>
    unfold getKeyLoop
    cases hiter : q.iter with
    | nil =>
      have hnil : rest src q = [] := by
        refine rest_eq_nil fun key _ hkey => ?_
        rw [hiter] at hkey
        exact MojDbQueryPlan.not_covered_nil key hkey.2.1
      exact ⟨h, rfl, fun _ => ⟨rfl, rfl⟩, fun _ => by rw [hnil]; exact ⟨rfl, rfl⟩⟩
    | cons range ranges =>
      have hordered := h.ordered
      rw [hiter] at hordered
      have hbound : range.upperKey ≠ [] := hordered.bounded range List.mem_cons_self
      dsimp only
      by_cases hlimit : q.limitEnforced src = true
      · have hle : src.limit ≤ q.count := of_decide_eq_true hlimit
        rw [if_pos hlimit]
        exact ⟨h, rfl, fun _ => ⟨rfl, rfl⟩, fun hlt => absurd hle (not_le.mpr hlt)⟩
      have hlt : q.count < src.limit := not_le.mp fun hle => hlimit (decide_eq_true hle)
      rw [if_neg hlimit]
      cases get_arrives h hiter with
      | inl hend =>
        -- the end of the index
        obtain ⟨hfound, hstate, hcount, hnone⟩ := hend
        have hnil : rest src q = [] := by
          refine rest_eq_nil fun key hkey hwanted => hnone key hkey ⟨hwanted.1, ?_⟩
          rw [hiter] at hwanted
          exact hordered.from_of_covered hwanted.2.1
        rw [hfound]
        refine ⟨⟨⟨nofun, .nil⟩, fun hseek => ?_, nofun⟩, hcount, fun hle => absurd hlt (not_lt.mpr hle), fun _ => ?_⟩
        · rw [hstate] at hseek
          cases hseek
        · rw [hnil]
          exact ⟨rfl, rest_eq_nil fun key _ hkey => MojDbQueryPlan.not_covered_nil key hkey.2.1⟩
      | inr hfound =>
        obtain ⟨k, hk, hget, hfrom, hfirst⟩ := hfound
        have harrived := ok_arrived h hiter hfrom
        have hrest := rest_arrived h hiter hk hfirst
        have hshorter := length_aheadKeys_arrived hk hfirst
        change q.get src range = (true, arrived q k) at hget
        rw [hget]
        simp only [Bool.not_true, Bool.false_eq_true, if_false]
        by_cases hmatch : (arrived q k).match_ src range = true
        · have hupto : src.Upto range k := (match_iff hbound).mp hmatch
          have hcovered : Covered q.iter k := by
            rw [hiter, covered_cons]
            exact .inl ((Source.contains_iff hbound).mpr ⟨hfrom, hupto⟩)
          rw [if_pos hmatch]
          by_cases hexclude : (src.ignoreInactiveShards && src.checkShard (arrived q k).keyData) = true
          · -- a key of an inactive shard is passed over
            have hnot : ¬Wanted src q.iter k := fun hw => hw.2 (by simpa [arrived] using hexclude)
            rw [if_neg hnot] at hrest
            rw [if_pos hexclude, hrest]
            refine ih harrived ?_
            change q.iter.length + (aheadKeys src (arrived q k)).length < fuel
            omega
          · have hwanted : Wanted src q.iter k := ⟨hcovered, fun hw => hexclude (by simpa [arrived] using hw)⟩
            rw [if_pos hwanted] at hrest
            rw [if_neg hexclude, hrest]
            exact ⟨harrived, rfl, fun hle => absurd hlt (not_lt.mpr hle), fun _ => ⟨rfl, rfl⟩⟩
        · -- what is left is not in the range, and the next one starts from here
          have hupto : ¬src.Upto range k := fun hu => hmatch ((match_iff (q := arrived q k) hbound).mpr hu)
          have hne : k ≠ [] := src.keys_ne_nil k hk
          have hahead : ∀ x, Ahead src { arrived q k with state := .seek, iter := ranges } x ↔ src.Le k x := by
            intro x
            exact or_iff_right hne
          rw [if_neg hmatch]
          have hok : Ok src { arrived q k with state := .seek, iter := ranges } :=
            ⟨hordered.tail, fun _ _ => ⟨rfl, hk⟩, nofun⟩
          have hsame : rest src { arrived q k with state := .seek, iter := ranges } = rest src q := by
            refine rest_congr fun x hx => ?_
            rw [hahead, ahead_wanted_iff h hiter hfirst hx, hiter]
            refine and_congr_right fun hle => and_congr_left fun _ => ?_
            rw [covered_cons]
            refine (or_iff_right fun hcontains => ?_).symm
            exact hupto (((Source.contains_iff hbound).mp hcontains).2.anti hle)
          have hlength : (aheadKeys src { arrived q k with state := .seek, iter := ranges }).length ≤
              (aheadKeys src q).length := by
            refine le_trans (le_of_eq (congrArg List.length (List.filter_congr fun x _ => ?_)))
              (length_filter_le_aheadKeys hfirst)
            exact decide_eq_decide.mpr (hahead x)
          have hfuel' : ranges.length + (aheadKeys src { arrived q k with state := .seek, iter := ranges }).length < fuel := by
            rw [hiter, List.length_cons] at hfuel
            omega
          rw [← hsame]
          exact ih hok hfuel'

theorem getKey_spec (h : Ok src q) :
    Ok src (q.getKey src).2 ∧ (q.getKey src).2.count = q.count ∧
      (src.limit ≤ q.count → (q.getKey src).1 = none ∧ rest src (q.getKey src).2 = rest src q) ∧
      (q.count < src.limit → (q.getKey src).1.map Prod.fst = (rest src q).head? ∧
        rest src (q.getKey src).2 = (rest src q).tail) := by
  refine getKeyLoop_spec h ?_
  have hle : (aheadKeys src q).length ≤ src.keys.size := length_filter_inOrder_le src _
  omega

theorem incrementCount_eq (src : Source) (q : MojDbIsamQuery) :
    ∃ endKey, q.incrementCount src = { q with count := q.count + 1, endKey } := by
  unfold incrementCount saveEndKey
  dsimp only
  split_ifs
  · exact ⟨_, rfl⟩
  · exact ⟨_, rfl⟩
  · exact ⟨q.endKey, rfl⟩

/-- Successive calls return the keys to come one after the other, until the limit is enforced. -/
theorem keysOf_eq_take (h : Ok src q) (calls : List Bool) :
    keysOf src calls q = (rest src q).take (allowed (src.limit - q.count) calls) := by
  induction calls generalizing q with
  | nil => cases src.limit - q.count <;> rfl
  | cons counted calls ih =>
    obtain ⟨hok, hcount, hstop, hgo⟩ := getKey_spec h
    rw [keysOf]
    by_cases hlt : q.count < src.limit
    · obtain ⟨hkey, hrest⟩ := hgo hlt
      obtain ⟨left, hleft⟩ : ∃ left, src.limit - q.count = left + 1 := ⟨src.limit - q.count - 1, by omega⟩
      cases hget : q.getKey src with
      | mk found q' =>
        rw [hget] at hok hcount hkey hrest
        cases found with
        | none =>
          have hnil : rest src q = [] := List.head?_eq_none_iff.mp hkey.symm
          dsimp only
          rw [ih hok, hrest, hnil, List.tail_nil, List.take_nil, List.take_nil]
        | some kg =>
          have hcons : rest src q = kg.1 :: rest src q' := by
            rw [hrest]
            exact (List.cons_head?_tail hkey.symm).symm
          dsimp only
          rw [hcons, hleft]
          cases counted with
          | true =>
            obtain ⟨endKey, hinc⟩ := incrementCount_eq src q'
            have hok' : Ok src (q'.incrementCount src) := by
              rw [hinc]
              exact ⟨hok.ordered, hok.at_key, hok.in_range⟩
            have hrest' : rest src (q'.incrementCount src) = rest src q' := by
              rw [hinc]
              rfl
            have hcount' : src.limit - (q'.incrementCount src).count = left := by
              rw [hinc]
              change src.limit - (q'.count + 1) = left
              change q'.count = q.count at hcount
              omega
            rw [if_pos rfl, ih hok', hrest', hcount']
            rfl
          | false =>
            rw [if_neg nofun, ih hok]
            change q'.count = q.count at hcount
            rw [hcount, hleft]
            rfl
    · obtain ⟨hnone, hrest⟩ := hstop (not_lt.mp hlt)
      have hzero : src.limit - q.count = 0 := by omega
      have hallowed : ∀ calls, allowed 0 calls = 0 := fun calls => by cases calls <;> rfl
      cases hget : q.getKey src with
      | mk found q' =>
        rw [hget] at hok hcount hnone hrest
        dsimp only at hnone hcount
        subst hnone
        dsimp only
        rw [ih hok, hcount, hzero, hallowed, hallowed, List.take_zero, List.take_zero]

end MojDbIsamQuery

end Db8
