import Db8.Db.MojDbQueryOrder
import Db8.Lib.SortedMap

/-!
# Db.MojDbWatcher

A watcher of a query: the ranges of its plan, the limit its cursor stopped at, and whether it waits
for its cursor, is active, or is done.

* `MojDbWatcher.fire`     — a changed key reaches the watcher.
* `MojDbWatcher.activate` — the cursor closes; a change that came before is looked at again.
* `trigger`               — the first pending key in the ranges, in the order a commit looks.
* `trigger_inLimit`       — the trigger is within the limit when a changed key is, unless a descending
  watcher has changed keys on both sides of its limit in one range.
-/

namespace Db8

open Lib

namespace MojDbWatcher

inductive State where
  | invalid | pending | active
  deriving DecidableEq

end MojDbWatcher

structure MojDbWatcher where
  ranges : List MojDbKeyRange
  desc : Bool
  limitKey : MojDbKey
  fireKey : MojDbKey
  state : MojDbWatcher.State
  deriving DecidableEq

namespace MojDbWatcher

/-- `init`: the watcher waits for its cursor to be closed. -/
def init (ranges : List MojDbKeyRange) (desc : Bool) : MojDbWatcher := ⟨ranges, desc, [], [], .pending⟩

variable (w : MojDbWatcher)

/-- `inRange`: the key is not beyond the limit. -/
def inLimit (limitKey key : MojDbKey) : Bool :=
  limitKey = [] ∨ w.desc = true ∧ limitKey ≤ key ∨ w.desc = false ∧ key ≤ limitKey

/-- `fireImpl` invalidates the watcher before it signals. -/
def fireImpl : MojDbWatcher × Bool := ({ w with state := .invalid }, true)

def activate (limitKey : MojDbKey) : MojDbWatcher × Bool :=
  if w.state = .invalid then (w, false)
  else
    let w := { w with state := .active }
    if w.fireKey ≠ [] ∧ w.inLimit limitKey w.fireKey then w.fireImpl
    else ({ w with limitKey }, false)

def fire (key : MojDbKey) : MojDbWatcher × Bool :=
  if !w.inLimit w.limitKey key then (w, false)
  else
    match w.state with
    | .active => w.fireImpl
    | .pending =>
      -- keep the least key that fired, the greatest for a descending query
      let save := w.desc = true ∧ w.fireKey < key ∨ w.desc = false ∧ (w.fireKey = [] ∨ key < w.fireKey)
      (if save then { w with fireKey := key } else w, false)
    | .invalid => (w, false)

/-- The keys the watcher watches. -/
def InRanges (key : MojDbKey) : Prop := ∃ range ∈ w.ranges, range.contains key = true

instance (key : MojDbKey) : Decidable (w.InRanges key) :=
  inferInstanceAs (Decidable (∃ range ∈ w.ranges, range.contains key = true))

/-- The ranges lie behind each other in the order of the query, and each has an upper key. -/
structure Ordered : Prop where
  asc : w.desc = false → w.ranges.Pairwise MojDbQueryPlan.Apart
  desc : w.desc = true → w.ranges.Pairwise fun a b => MojDbQueryPlan.Apart b a
  bounded : MojDbQueryPlan.Bounded w.ranges

variable {w}

/-- The watcher of a plan has ordered ranges. -/
theorem ordered_of_plan {index : MojDbIndex} {query : MojDbQuery} {ranges : List MojDbKeyRange}
    (hanswer : index.canAnswer query = true) (hplan : MojDbQueryPlan.init index query = .ok ranges) :
    (init ranges query.desc).Ordered := by
  obtain ⟨effective, heff, hranges⟩ := bind_eq_ok.mp hplan
  obtain ⟨front, back, clauses, h⟩ := MojDbQueryPlan.answers_of_canAnswer hanswer heff
  obtain ⟨hapart, hbounded⟩ := MojDbQueryPlan.buildRanges_ordered h
  have hdesc : effective.desc = query.desc := MojDbQueryPlan.effectiveQuery_desc heff
  have heq := pure_eq_ok.mp hranges
  rw [hdesc] at heq
  cases hd : query.desc with
  | false =>
    rw [hd, if_neg (by simp)] at heq
    subst heq
    exact ⟨fun _ => hapart.imp fun h => h.apart, fun h => (by cases h), hbounded⟩
  | true =>
    rw [hd, if_pos rfl] at heq
    subst heq
    refine ⟨fun h => (by cases h), fun _ => List.pairwise_reverse.mpr (hapart.imp fun h => h.apart), ?_⟩
    intro range hrange
    exact hbounded range (List.mem_reverse.mp hrange)

/-! ## The trigger -/

/-- `committed`: the ranges in order, in each the pending key sets in the order of the map, in each
set its keys in order; the first key that is in the range triggers the watcher. -/
def trigger (pendingKeys : SortedMap Nat KeySet) (w : MojDbWatcher) : Option MojDbKey :=
  w.ranges.findSome? fun range =>
    pendingKeys.entries.findSome? fun entry => entry.2.elems.find? range.contains

/-- The keys pending for one transaction. -/
def keysOf (pendingKeys : SortedMap Nat KeySet) (txn : Nat) : KeySet :=
  (pendingKeys.find txn).getD .empty

variable {pendingKeys : SortedMap Nat KeySet} {txn : Nat} {key key' : MojDbKey}

theorem mem_keysOf_of_entry {entry : Nat × KeySet} (hentry : entry ∈ pendingKeys.entries)
    (hkey : key ∈ entry.2) : key ∈ keysOf pendingKeys entry.1 := by
  obtain ⟨t, keys⟩ := entry
  rw [keysOf, SortedMap.mem_entries.mp hentry]
  exact hkey

theorem exists_entry_of_mem_keysOf (h : key ∈ keysOf pendingKeys txn) :
    ∃ keys, (txn, keys) ∈ pendingKeys.entries ∧ key ∈ keys := by
  unfold keysOf at h
  cases hfind : pendingKeys.find txn with
  | none =>
    rw [hfind] at h
    exact absurd h (SortedSet.not_mem_empty key)
  | some keys =>
    rw [hfind] at h
    exact ⟨keys, SortedMap.mem_entries.mpr hfind, h⟩

/-- No other transaction has a key pending that the watcher watches. -/
def OthersClear (pendingKeys : SortedMap Nat KeySet) (txn : Nat) (w : MojDbWatcher) : Prop :=
  ∀ other, other ≠ txn → ∀ key ∈ keysOf pendingKeys other, ¬ w.InRanges key

/-- In each range the changed keys of a descending watcher are all on one side of its limit. -/
def OneSided (pendingKeys : SortedMap Nat KeySet) (txn : Nat) (w : MojDbWatcher) : Prop :=
  w.desc = true → w.limitKey ≠ [] → ∀ range ∈ w.ranges,
    ∀ key ∈ keysOf pendingKeys txn, ∀ key' ∈ keysOf pendingKeys txn,
      range.contains key = true → range.contains key' = true → (w.limitKey ≤ key ↔ w.limitKey ≤ key')

/-- The trigger is the least changed key in the first range that has one. -/
theorem trigger_eq_some (hothers : OthersClear pendingKeys txn w) (h : trigger pendingKeys w = some key) :
    key ∈ keysOf pendingKeys txn ∧
      ∃ before range after, w.ranges = before ++ range :: after ∧ range.contains key = true ∧
        (∀ other ∈ before, ∀ k ∈ keysOf pendingKeys txn, ¬ other.contains k = true) ∧
        ∀ k ∈ keysOf pendingKeys txn, range.contains k = true → key ≤ k := by
  obtain ⟨before, range, after, hranges, hrange, hbefore⟩ := List.findSome?_eq_some_iff.mp h
  obtain ⟨entries, entry, rest, hentries, hfind, -⟩ := List.findSome?_eq_some_iff.mp hrange
  obtain ⟨hcontains, head, tail, helems, hhead⟩ := List.find?_eq_some_iff_append.mp hfind
  have hentry : entry ∈ pendingKeys.entries := by simp [hentries]
  have hkey : key ∈ keysOf pendingKeys entry.1 :=
    mem_keysOf_of_entry hentry (SortedSet.mem_def.mpr (by simp [helems]))
  have htxn : entry.1 = txn := by
    by_contra hne
    exact hothers entry.1 hne key hkey ⟨range, by simp [hranges], hcontains⟩
  subst htxn
  refine ⟨hkey, before, range, after, hranges, hcontains, ?_, ?_⟩
  · intro other hother k hk hin
    obtain ⟨keys, hmem, hkmem⟩ := exists_entry_of_mem_keysOf hk
    have hnone := List.findSome?_eq_none_iff.mp (hbefore other hother) (entry.1, keys) hmem
    have := List.find?_eq_none.mp hnone k hkmem
    exact this hin
  · intro k hk hin
    have hsorted := entry.2.sorted
    rw [helems] at hsorted
    have hmem : k ∈ entry.2.elems := by
      obtain ⟨keys, hkeys, hkmem⟩ := exists_entry_of_mem_keysOf hk
      have hsame : keys = entry.2 := by
        have h1 := SortedMap.mem_entries.mp hkeys
        have h2 := SortedMap.mem_entries.mp (show (entry.1, entry.2) ∈ pendingKeys.entries from hentry)
        exact Option.some.inj (h1.symm.trans h2)
      exact hsame ▸ hkmem
    rw [helems] at hmem
    rcases List.mem_append.mp hmem with hmem | hmem
    · have := hhead k hmem
      simp [hin] at this
    · rcases List.mem_cons.mp hmem with rfl | hmem
      · exact le_refl _
      · exact ((List.pairwise_cons.mp (List.pairwise_append.mp hsorted).2.1).1 k hmem).le

/-- A changed key in the ranges triggers the watcher. -/
theorem trigger_isSome (hkey : key ∈ keysOf pendingKeys txn) (hin : w.InRanges key) :
    ∃ first, trigger pendingKeys w = some first := by
  obtain ⟨range, hrange, hcontains⟩ := hin
  obtain ⟨keys, hentry, hmem⟩ := exists_entry_of_mem_keysOf hkey
  rw [← Option.ne_none_iff_exists']
  intro hnone
  have hentries := List.findSome?_eq_none_iff.mp hnone range hrange
  have hfind := List.findSome?_eq_none_iff.mp hentries (txn, keys) hentry
  exact List.find?_eq_none.mp hfind key hmem hcontains

/-- **The trigger is within the limit when a changed key is.** -/
theorem trigger_inLimit (hordered : w.Ordered) (hothers : OthersClear pendingKeys txn w)
    (hside : OneSided pendingKeys txn w) (hkey : key ∈ keysOf pendingKeys txn) (hin : w.InRanges key)
    (hlimit : w.inLimit w.limitKey key = true) :
    ∃ first, trigger pendingKeys w = some first ∧ first ∈ keysOf pendingKeys txn ∧
      w.inLimit w.limitKey first = true := by
  obtain ⟨first, htrigger⟩ := trigger_isSome hkey hin
  obtain ⟨hfirst, before, range, after, hranges, hcontains, hbefore, hleast⟩ :=
    trigger_eq_some hothers htrigger
  refine ⟨first, htrigger, hfirst, ?_⟩
  obtain ⟨range', hrange', hcontains'⟩ := hin
  -- the key is in the range of the trigger or in one behind it
  have hwhere : range' = range ∨ range' ∈ after := by
    rw [hranges] at hrange'
    rcases List.mem_append.mp hrange' with h | h
    · exact absurd hcontains' (hbefore range' h key hkey)
    · exact List.mem_cons.mp h
  have hbounds : ∀ r ∈ w.ranges, ∀ k, r.contains k = true → r.lowerKey ≤ k ∧ k < r.upperKey :=
    fun r hr k hk => (MojDbQueryPlan.contains_iff_of_bounded (hordered.bounded r hr)).mp hk
  have hfirstIn := hbounds range (by simp [hranges]) first hcontains
  have hkeyIn := hbounds range' hrange' key hcontains'
  simp only [inLimit, decide_eq_true_eq] at hlimit ⊢
  rcases hlimit with hnone | ⟨hdesc, hle⟩ | ⟨hasc, hle⟩
  · exact .inl hnone
  · refine .inr (.inl ⟨hdesc, ?_⟩)
    rcases hwhere with rfl | hafter
    · by_cases hempty : w.limitKey = []
      · rw [hempty]
        exact nil_le first
      · exact (hside hdesc hempty range' hrange' first hfirst key hkey hcontains hcontains').mpr hle
    · have hapart := hordered.desc hdesc
      rw [hranges] at hapart
      have := (List.pairwise_cons.mp (List.pairwise_append.mp hapart).2.1).1 range' hafter
      exact hle.trans (hkeyIn.2.le.trans (this.trans hfirstIn.1))
  · refine .inr (.inr ⟨hasc, ?_⟩)
    rcases hwhere with rfl | hafter
    · exact (hleast key hkey hcontains').trans hle
    · have hapart := hordered.asc hasc
      rw [hranges] at hapart
      have := (List.pairwise_cons.mp (List.pairwise_append.mp hapart).2.1).1 range' hafter
      exact (hfirstIn.2.le.trans (this.trans hkeyIn.1)).trans hle

end MojDbWatcher

end Db8
