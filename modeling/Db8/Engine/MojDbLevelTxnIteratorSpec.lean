import Db8.Engine.MojDbLevelTxnIterator
import Db8.Lib.MergeCursor
import Db8.Lib.MapCursor

/-!
# Engine.MojDbLevelTxnIteratorSpec

What the operations of the iterator do to its position in the merged content.

* `Stands`, `Follows`   — the iterator is at a position, or ahead of it after a deletion there.
* `move_stands`, `toEdge_stands`, `seek_stands` — where the moves go.
* `follows_put`, `follows_del` — the notifications keep the position.
* `read_stands`         — what is read there.
-/

namespace Db8

open Lib
open Lib.Toward (on finish keysAt)

variable {κ ν : Type*} [LinearOrder κ]

/-! ## The keys of a transaction -/

namespace MojDbLevelTableTxn

variable (txn : MojDbLevelTableTxn κ ν)

/-- The keys the cursor over the database runs over. -/
def live : Set κ := {k | k ∈ txn.db.keys ∧ k ∉ txn.pendingDeletes}

def pending : Set κ := {k | k ∈ txn.pendingValues.keys}

theorem mem_merged {k : κ} : k ∈ txn.merged.keys ↔ k ∈ txn.live ∪ txn.pending := by
  change k ∈ txn.merged.keys ↔ (k ∈ txn.db.keys ∧ k ∉ txn.pendingDeletes) ∨ k ∈ txn.pendingValues.keys
  rw [SortedMap.mem_keys, find_merged, SortedMap.mem_keys, SortedMap.mem_keys]
  by_cases hk : k ∈ txn.pendingDeletes
  · simp [hk, txn.disjoint k hk]
  · simp [hk, or_comm, imp_iff_not_or]

theorem find_merged_pending {k : κ} (h : k ∈ txn.pending) :
    txn.merged.find k = txn.pendingValues.find k := by
  have hsome := SortedMap.mem_keys.mp h
  rw [find_merged, if_neg fun hdel => hsome (txn.disjoint k hdel)]
  cases hv : txn.pendingValues.find k with
  | none => exact absurd hv hsome
  | some v => rfl

theorem find_merged_live {k : κ} (h : k ∈ txn.live) (hp : k ∉ txn.pending) :
    txn.merged.find k = txn.db.find k := by
  have hnone : txn.pendingValues.find k = none := not_not.mp fun hne => hp (SortedMap.mem_keys.mpr hne)
  rw [find_merged, if_neg h.2, hnone, Option.none_or]

theorem live_put (key : κ) (val : ν) : txn.live ⊆ (txn.put key val).live ∧
    ∀ k ∈ (txn.put key val).live, k ∈ txn.live ∨ k = key := by
  refine ⟨fun k hk => ⟨hk.1, fun hdel => hk.2 (SortedSet.mem_del.mp hdel).1⟩, fun k hk => ?_⟩
  by_cases he : k = key
  · exact .inr he
  · exact .inl ⟨hk.1, fun hdel => hk.2 (SortedSet.mem_del.mpr ⟨hdel, he⟩)⟩

theorem pending_put (key : κ) (val : ν) (k : κ) : k ∈ (txn.put key val).pending ↔ k ∈ txn.pending ∨ k = key := by
  change k ∈ (txn.pendingValues.insert key val).keys ↔ k ∈ txn.pendingValues.keys ∨ k = key
  rw [SortedMap.mem_keys, SortedMap.mem_keys, SortedMap.find_insert]
  by_cases he : k = key <;> simp [he]

theorem live_del (key : κ) : (txn.del key).live = txn.live \ {key} := by
  ext k
  change k ∈ txn.db.keys ∧ k ∉ txn.pendingDeletes.put key ↔ (k ∈ txn.db.keys ∧ k ∉ txn.pendingDeletes) ∧ k ∉ ({key} : Set κ)
  rw [SortedSet.mem_put, Set.mem_singleton_iff]
  tauto

theorem pending_del (key : κ) : (txn.del key).pending = txn.pending \ {key} := by
  ext k
  change k ∈ (txn.pendingValues.erase key).keys ↔ k ∈ txn.pendingValues.keys ∧ k ∉ ({key} : Set κ)
  rw [SortedMap.mem_keys, SortedMap.mem_keys, SortedMap.find_erase, Set.mem_singleton_iff]
  by_cases he : k = key <;> simp [he]

end MojDbLevelTableTxn

namespace MojDbLevelTxnIterator

variable (txn : MojDbLevelTableTxn κ ν)

/-- The loop ends at the first live key from the position on. -/
theorem skipDeleted_isLeast (fwd : Bool) (p : CursorPos κ) :
    IsLeast (insert ⊤ {x ∈ keysAt fwd txn.live | on fwd p ≤ x}) (on fwd (skipDeleted txn fwd p)) := by
  unfold skipDeleted
  split_ifs with hp
  · subst hp
    rw [Lib.Toward.on_finish]
    exact ⟨.inl rfl, fun x hx => hx.elim ge_of_eq And.right⟩
  · have h := txn.db.keys.firstWith_isLeast fwd fun k => on fwd p ≤ on fwd (.key k) ∧ !txn.isDeleted k
    have hc : ∀ k, decide (on fwd p ≤ on fwd (.key k) ∧ (!txn.isDeleted k) = true) = true ↔
        on fwd p ≤ on fwd (.key k) ∧ k ∉ txn.pendingDeletes := by
      intro k
      simp [MojDbLevelTableTxn.isDeleted]
    refine ⟨h.1.imp id fun hmem => ?_, fun x hx => h.2 (hx.imp id fun hx => ?_)⟩
    · obtain ⟨k, ⟨hk, hck⟩, he⟩ := hmem
      obtain ⟨hle, hdel⟩ := (hc k).mp hck
      exact ⟨⟨k, ⟨hk, hdel⟩, he⟩, he ▸ hle⟩
    · obtain ⟨⟨k, ⟨hk, hdel⟩, rfl⟩, hle⟩ := hx
      exact ⟨k, ⟨hk, (hc k).mpr ⟨hle, hdel⟩⟩, rfl⟩

theorem live_subset {fwd : Bool} : keysAt fwd txn.live ⊆ keysAt fwd {k | k ∈ txn.db.keys} := by
  intro x hx
  obtain ⟨k, hk, rfl⟩ := hx
  exact ⟨k, hk.1, rfl⟩

/-- From the first key with a property that later keys keep, the loop goes to the first live one. -/
theorem skipDeleted_of_isLeast {fwd : Bool} {p : CursorPos κ} {c : Toward fwd κ → Prop}
    (hc : ∀ x y, x ≤ y → c x → c y)
    (hp : IsLeast (insert ⊤ {x ∈ keysAt fwd {k | k ∈ txn.db.keys} | c x}) (on fwd p)) :
    IsLeast (insert ⊤ {x ∈ keysAt fwd txn.live | c x}) (on fwd (skipDeleted txn fwd p)) := by
  have hskip := skipDeleted_isLeast txn fwd p
  refine ⟨?_, fun x hx => hskip.2 (hx.imp id fun hx => ⟨hx.1, hp.2 (.inr ⟨live_subset txn hx.1, hx.2⟩)⟩)⟩
  cases hp.1 with
  | inl htop =>
    left
    cases hskip.1 with
    | inl he => exact he
    | inr hmem => exact top_le_iff.mp (htop ▸ hmem.2)
  | inr hp => exact hskip.1.imp id fun hmem => ⟨hmem.1, hc _ _ hmem.2 hp.2⟩

/-- `++` or `--` with the loop after it goes to the next live key. -/
theorem skipDeleted_after (fwd : Bool) (p : CursorPos κ) :
    IsNext (keysAt fwd txn.live) (on fwd p) (on fwd (skipDeleted txn fwd (txn.db.keys.after fwd p))) :=
  skipDeleted_of_isLeast txn (fun _ _ hle hlt => hlt.trans_le hle) (SortedSet.after_isNext txn.db.keys fwd p)

/-- Where the cursor over both stands: at the key `getKey` reads. -/
theorem on_current (it : MojDbLevelTxnIterator κ) :
    on it.fwd it.current = min (on it.fwd it.dbPos) (on it.fwd it.insertsPos) := by
  obtain ⟨fwd, invalid, dbPos, insertsPos⟩ := it
  cases hc : cmp dbPos insertsPos with
  | lt =>
    have hlt := (cmp_eq_lt_iff _ _).mp hc
    have hcur : current ⟨fwd, invalid, dbPos, insertsPos⟩ = if fwd then dbPos else insertsPos := by
      cases fwd <;> simp [current, inTransaction, hc]
    rw [hcur]
    cases fwd with
    | false => exact (min_eq_right (b := on false insertsPos) hlt.le).symm
    | true => exact (min_eq_left (a := on true dbPos) hlt.le).symm
  | eq =>
    obtain rfl := (cmp_eq_eq_iff _ _).mp hc
    simp [current]
  | gt =>
    have hlt := (cmp_eq_gt_iff _ _).mp hc
    have hcur : current ⟨fwd, invalid, dbPos, insertsPos⟩ = if fwd then insertsPos else dbPos := by
      cases fwd <;> simp [current, inTransaction, hc]
    rw [hcur]
    cases fwd with
    | false => exact (min_eq_left (a := on false dbPos) hlt.le).symm
    | true => exact (min_eq_right (b := on true insertsPos) hlt.le).symm

/-- What `advance` does: the cursors at the current key move on. -/
theorem advance_spec (it : MojDbLevelTxnIterator κ) :
    ∃ m i, it.advance txn = { it with dbPos := m, insertsPos := i } ∧
      Aligned.Moved (keysAt it.fwd txn.live) (keysAt it.fwd txn.pending) (on it.fwd it.dbPos)
        (on it.fwd it.insertsPos) (on it.fwd m) (on it.fwd i) := by
  have hdb := skipDeleted_after txn it.fwd it.dbPos
  have hins := SortedSet.after_isNext txn.pendingValues.keys it.fwd it.insertsPos
  have hfinish : ∀ p : CursorPos κ, p = finish it.fwd → on it.fwd p = ⊤ := fun p hp => hp ▸ Lib.Toward.on_finish
  have htop : ∀ S : Set (Toward it.fwd κ), IsNext S ⊤ ⊤ := fun S => IsNext.intro (.inl rfl) fun x _ hlt =>
    absurd hlt not_top_lt
  unfold advance
  split_ifs with hi hm hlt he
  · refine ⟨_, _, rfl, fun _ => hdb, fun hlt => ?_, fun hle => ?_, fun _ => rfl⟩
    · exact absurd hlt (hfinish _ hi ▸ not_top_lt)
    · rw [hfinish _ hi]
      exact htop _
  · have hle : ¬ on it.fwd it.dbPos ≤ on it.fwd it.insertsPos := by
      rw [hfinish _ hm, top_le_iff, ← Lib.Toward.on_finish, Lib.Toward.on_inj]
      exact hi
    exact ⟨_, _, rfl, fun h => absurd h hle, fun _ => rfl, fun _ => hins, fun h => absurd h.le hle⟩
  · exact ⟨_, _, rfl, fun _ => hdb, fun h => absurd h hlt.asymm, fun h => absurd hlt h.not_gt, fun _ => rfl⟩
  · have hne : ∀ {p : Prop}, on it.fwd it.dbPos < on it.fwd it.insertsPos → p := fun h => absurd h hlt
    have hne' : ¬ on it.fwd it.insertsPos < on it.fwd it.dbPos := by
      rw [he]
      exact lt_irrefl _
    exact ⟨_, _, rfl, fun _ => hdb, fun h => absurd h hne', fun _ => hins, hne⟩
  · have hlt' : on it.fwd it.insertsPos < on it.fwd it.dbPos :=
      lt_of_le_of_ne (not_lt.mp hlt) fun h => he (Lib.Toward.on_inj.mp h).symm
    exact ⟨_, _, rfl, fun h => absurd hlt' h.not_gt, fun _ => rfl, fun _ => hins, fun h => absurd h hlt⟩

/-! ## Moves -/

/-- The keys of the merged content. -/
def allKeys : Set κ := txn.live ∪ txn.pending

/-- The iterator runs in the direction `fwd` and stands at `pos`. -/
structure Stands (fwd : Bool) (it : MojDbLevelTxnIterator κ) (pos : CursorPos κ) : Prop where
  fwd_eq : it.fwd = fwd
  valid : it.invalid = false
  aligned : Aligned (keysAt fwd txn.live) (keysAt fwd txn.pending) (on fwd it.dbPos) (on fwd it.insertsPos)
  min_eq : min (on fwd it.dbPos) (on fwd it.insertsPos) = on fwd pos

theorem advance_stands {fwd : Bool} {it : MojDbLevelTxnIterator κ} {pos pos' : CursorPos κ}
    (h : Stands txn fwd it pos) (hnext : IsNext (keysAt fwd (allKeys txn)) (on fwd pos) (on fwd pos')) :
    Stands txn fwd (it.advance txn) pos' := by
  obtain ⟨rfl, hvalid, haligned, hmin⟩ := h
  obtain ⟨m, i, he, hmv⟩ := advance_spec txn it
  rw [allKeys, Lib.Toward.keysAt_union, ← hmin] at hnext
  rw [he]
  exact ⟨rfl, hvalid, hmv.aligned haligned, (hmv.isNext haligned).unique hnext⟩

/-- The current key changes with the direction just when the two cursors stand apart. -/
theorem turned_current_lt (it : MojDbLevelTxnIterator κ) :
    on (!it.fwd) (current { it with fwd := !it.fwd, invalid := false }) < on (!it.fwd) it.current ↔
      it.dbPos ≠ it.insertsPos := by
  have hold := on_current it
  have hnew := on_current { it with fwd := !it.fwd, invalid := false }
  obtain hlt | heq | hgt := lt_trichotomy (on it.fwd it.dbPos) (on it.fwd it.insertsPos)
  · have hlt' := Lib.Toward.on_not_lt.mpr hlt
    rw [Lib.Toward.on_inj.mp (hold.trans (min_eq_left hlt.le)), hnew, min_eq_right hlt'.le]
    exact iff_of_true hlt' fun he => hlt.ne (Lib.Toward.on_inj.mpr he)
  · have hpos := Lib.Toward.on_inj.mp heq
    rw [hnew, Lib.Toward.on_inj.mp (hold.trans (min_eq_left heq.le)), hpos, min_self]
    exact iff_of_false (lt_irrefl _) fun h => h rfl
  · have hgt' := Lib.Toward.on_not_lt.mpr hgt
    rw [Lib.Toward.on_inj.mp (hold.trans (min_eq_right hgt.le)), hnew, min_eq_left hgt'.le]
    exact iff_of_true hgt' fun he => hgt.ne (Lib.Toward.on_inj.mpr he.symm)

/-- No live key lies between the pending and the database cursor, in this order. -/
def TurnClear (it : MojDbLevelTxnIterator κ) : Prop :=
  ∀ k ∈ txn.live, on it.fwd it.insertsPos < on it.fwd (.key k) → ¬ on it.fwd (.key k) < on it.fwd it.dbPos

instance (it : MojDbLevelTxnIterator κ) : Decidable (TurnClear txn it) :=
  decidable_of_iff (∀ k ∈ txn.db.keys.elems, k ∉ txn.pendingDeletes →
      on it.fwd it.insertsPos < on it.fwd (.key k) → ¬ on it.fwd (.key k) < on it.fwd it.dbPos)
    ⟨fun h k hk => h k hk.1 hk.2, fun h k hk hdel => h k ⟨hk, hdel⟩⟩

theorem turn_stands {it : MojDbLevelTxnIterator κ}
    (h : Aligned (keysAt it.fwd txn.live) (keysAt it.fwd txn.pending) (on it.fwd it.dbPos)
      (on it.fwd it.insertsPos))
    (hend : ¬(it.dbPos = finish it.fwd ∧ it.insertsPos = finish it.fwd)) (hclear : TurnClear txn it) :
    Stands txn (!it.fwd) (it.turn txn) it.current := by
  have hclear' : ∀ x ∈ keysAt it.fwd txn.live, on it.fwd it.insertsPos < x → ¬ x < on it.fwd it.dbPos := by
    intro x hx
    obtain ⟨k, hk, rfl⟩ := hx
    exact hclear k hk
  have htop : ∀ p : CursorPos κ, on it.fwd p = ⊤ ↔ p = finish it.fwd := by
    intro p
    rw [← Lib.Toward.on_finish, Lib.Toward.on_inj]
  have hcurrent := on_current it
  -- what the turn leaves for the opposite direction, by the cursor that has to come back
  have hmain : on it.fwd it.insertsPos < on it.fwd it.dbPos → ∀ m,
      IsNext (keysAt (!it.fwd) txn.live) (on (!it.fwd) it.dbPos) (on (!it.fwd) m) →
      Stands txn (!it.fwd) ⟨!it.fwd, false, m, it.insertsPos⟩ it.current := by
    intro hlt m hm
    obtain ⟨hback, hmax⟩ := h.turn_main hlt hclear' (Lib.Toward.isNext_not.mp hm)
    refine ⟨rfl, rfl, Lib.Toward.aligned_not hback, Lib.Toward.min_not ?_⟩
    rw [hcurrent, min_eq_right hlt.le, hmax]
  have hpending : on it.fwd it.dbPos < on it.fwd it.insertsPos → ∀ i,
      IsNext (keysAt (!it.fwd) txn.pending) (on (!it.fwd) it.insertsPos) (on (!it.fwd) i) →
      Stands txn (!it.fwd) ⟨!it.fwd, false, it.dbPos, i⟩ it.current := by
    intro hlt i hi
    obtain ⟨hback, hmax⟩ := h.turn_pending hlt (Lib.Toward.isNext_not.mp hi)
    refine ⟨rfl, rfl, Lib.Toward.aligned_not hback, Lib.Toward.min_not ?_⟩
    rw [hcurrent, min_eq_left hlt.le, hmax]
  dsimp only [turn]
  split_ifs with hm hi hback
  · refine hmain ?_ _ (skipDeleted_after txn (!it.fwd) it.dbPos)
    rw [(htop _).mpr hm, lt_top_iff_ne_top, ne_eq, htop]
    exact fun hi => hend ⟨hm, hi⟩
  · refine hpending ?_ _ (SortedSet.after_isNext txn.pendingValues.keys (!it.fwd) it.insertsPos)
    rw [(htop _).mpr hi, lt_top_iff_ne_top, ne_eq, htop]
    exact hm
  · obtain ⟨m, i, he, hmv⟩ := advance_spec txn { it with fwd := !it.fwd, invalid := false }
    rw [he]
    cases lt_or_gt_of_ne (fun he => (turned_current_lt it).mp hback (Lib.Toward.on_inj.mp he)) with
    | inl hlt =>
      have hlt' := Lib.Toward.on_not_lt.mpr hlt
      have hstay : m = it.dbPos := hmv.main_stays hlt'
      rw [hstay]
      exact hpending hlt i (hmv.pending hlt'.le)
    | inr hgt =>
      have hgt' := Lib.Toward.on_not_lt.mpr hgt
      have hstay : i = it.insertsPos := hmv.pending_stays hgt'
      rw [hstay]
      exact hmain hgt m (hmv.main hgt'.le)
  · have hpos : it.dbPos = it.insertsPos := not_not.mp fun hne => hback ((turned_current_lt it).mpr hne)
    obtain ⟨hstill, hmax⟩ := h.turn_eq (Lib.Toward.on_inj.mpr hpos) fun hmt => hm ((htop _).mp hmt)
    refine ⟨rfl, rfl, Lib.Toward.aligned_not hstill, Lib.Toward.min_not ?_⟩
    rw [hcurrent, hmax, min_eq_left (Lib.Toward.on_inj.mpr hpos).le]

theorem toEdge_stands {fwd : Bool} {pos : CursorPos κ}
    (h : IsLeast (insert ⊤ {x ∈ keysAt fwd (allKeys txn) | ⊥ ≤ x}) (on fwd pos)) :
    Stands txn fwd (toEdge txn fwd) pos := by
  have hdb := skipDeleted_of_isLeast txn (fun _ _ hle hbot => hbot.trans hle) (SortedSet.toEdge_isLeast txn.db.keys fwd)
  have hins := SortedSet.toEdge_isLeast txn.pendingValues.keys fwd
  rw [allKeys, Lib.Toward.keysAt_union] at h
  exact ⟨rfl, rfl, Aligned.ofFirst hdb hins, (Aligned.first_min hdb hins).unique h⟩

theorem seek_stands {key : κ} {pos : CursorPos κ}
    (h : IsLeast (insert ⊤ {x ∈ keysAt true (allKeys txn) | on true (.key key) ≤ x}) (on true pos)) :
    Stands txn true (seek txn key) pos := by
  have hdb := skipDeleted_of_isLeast txn (fun _ _ hle hkey => hkey.trans hle)
    (SortedSet.atOrAfter_isLeast txn.db.keys true (.key key))
  have hins := SortedSet.atOrAfter_isLeast txn.pendingValues.keys true (.key key)
  rw [allKeys, Lib.Toward.keysAt_union] at h
  exact ⟨rfl, rfl, Aligned.ofFirst hdb hins, (Aligned.first_min hdb hins).unique h⟩

/-- How the iterator is related to a position in the merged content: it stands there, or, after the key
there was deleted under it, at the next key. -/
structure Follows (fwd : Bool) (it : MojDbLevelTxnIterator κ) (pos : CursorPos κ) : Prop where
  fwd_eq : it.fwd = fwd
  aligned : Aligned (keysAt fwd txn.live) (keysAt fwd txn.pending) (on fwd it.dbPos) (on fwd it.insertsPos)
  here : it.invalid = false → min (on fwd it.dbPos) (on fwd it.insertsPos) = on fwd pos
  ahead : it.invalid = true →
    IsNext (keysAt fwd (allKeys txn)) (on fwd pos) (min (on fwd it.dbPos) (on fwd it.insertsPos)) ∧
      on fwd pos ∉ keysAt fwd (allKeys txn)

theorem Stands.follows {fwd : Bool} {it : MojDbLevelTxnIterator κ} {pos : CursorPos κ}
    (h : Stands txn fwd it pos) : Follows txn fwd it pos :=
  ⟨h.fwd_eq, h.aligned, fun _ => h.min_eq, fun hinv => by simp [h.valid] at hinv⟩

/-- What is before the position is before the current key, also when that is ahead of the position. -/
theorem Follows.isNext_current {it : MojDbLevelTxnIterator κ} {pos pos' : CursorPos κ}
    (h : Follows txn it.fwd it pos)
    (hnext : IsNext (keysAt (!it.fwd) (allKeys txn)) (on (!it.fwd) pos) (on (!it.fwd) pos')) :
    IsNext (keysAt (!it.fwd) (allKeys txn)) (on (!it.fwd) it.current) (on (!it.fwd) pos') := by
  cases hinv : it.invalid with
  | false =>
    have hcur := Lib.Toward.on_inj.mp ((on_current it).trans (h.here hinv))
    rwa [hcur]
  | true =>
    obtain ⟨hahead, hnot⟩ := h.ahead hinv
    rw [← on_current] at hahead
    exact Lib.Toward.isNext_not.mpr ((hahead.isPrev_iff hnot).mp (Lib.Toward.isNext_not.mp hnext))

/-- With both cursors before the start of a run, the next key is the first one. -/
theorem Follows.isNext_start {fwd : Bool} {it : MojDbLevelTxnIterator κ} {pos pos' : CursorPos κ}
    (h : Follows txn it.fwd it pos) (hdb : it.dbPos = finish (!fwd)) (hins : it.insertsPos = finish (!fwd))
    (hnext : IsNext (keysAt fwd (allKeys txn)) (on fwd pos) (on fwd pos')) :
    IsNext (keysAt fwd (allKeys txn)) ⊥ (on fwd pos') := by
  have hmin : min (on it.fwd it.dbPos) (on it.fwd it.insertsPos) = on it.fwd (finish (!fwd)) := by
    rw [hdb, hins, min_self]
  by_cases hturn : it.fwd = fwd
  · subst hturn
    rw [Lib.Toward.on_finish_not] at hmin
    have hpos : on it.fwd pos = ⊥ := by
      cases hinv : it.invalid with
      | false => exact (h.here hinv).symm.trans hmin
      | true => exact le_bot_iff.mp (hmin ▸ (h.ahead hinv).1.le)
    rwa [hpos] at hnext
  · obtain rfl : fwd = !it.fwd := Bool.eq_not.mpr (Ne.symm hturn)
    have hcur := h.isNext_current txn hnext
    rw [Lib.Toward.on_inj.mp ((on_current it).trans hmin)] at hcur
    rwa [Lib.Toward.on_finish_not] at hcur

theorem isLeast_of_isNext_bot {fwd : Bool} {S : Set κ} {q : Toward fwd κ} (h : IsNext (keysAt fwd S) ⊥ q) :
    IsLeast (insert ⊤ {x ∈ keysAt fwd S | ⊥ ≤ x}) q := by
  refine ⟨h.1.imp id fun hq => ⟨hq.1, bot_le⟩, fun x hx => h.2 (hx.imp id fun hx => ⟨hx.1, ?_⟩)⟩
  obtain ⟨⟨k, _, rfl⟩, _⟩ := hx
  exact bot_lt_iff_ne_bot.mpr (Lib.Toward.on_key_ne_bot k)

/-- **Moves.** A move goes to the next key of the merged content in its direction. -/
theorem move_stands {fwd : Bool} {it : MojDbLevelTxnIterator κ} {pos pos' : CursorPos κ}
    (h : Follows txn it.fwd it pos) (hclear : it.fwd ≠ fwd → TurnClear txn it)
    (hnext : IsNext (keysAt fwd (allKeys txn)) (on fwd pos) (on fwd pos')) :
    Stands txn fwd (it.move txn fwd) pos' := by
  unfold move
  split_ifs with hstart hturn hinv
  · exact toEdge_stands txn (isLeast_of_isNext_bot (h.isNext_start txn hstart.1 hstart.2 hnext))
  · obtain rfl : fwd = !it.fwd := Bool.eq_not.mpr (Ne.symm hturn)
    rw [Bool.not_not] at hstart
    exact advance_stands txn (turn_stands txn h.aligned hstart (hclear hturn)) (h.isNext_current txn hnext)
  · obtain rfl : it.fwd = fwd := not_not.mp hturn
    exact ⟨rfl, rfl, h.aligned, (h.ahead hinv).1.unique hnext⟩
  · obtain rfl : it.fwd = fwd := not_not.mp hturn
    rw [Bool.not_eq_true] at hinv
    exact advance_stands txn ⟨rfl, hinv, h.aligned, h.here hinv⟩ hnext

/-! ## Reads -/

/-- **Reads.** An iterator that stands at a key of the merged content, or at the end, reads what is there. -/
theorem read_stands {fwd : Bool} {it : MojDbLevelTxnIterator κ} {pos : CursorPos κ}
    (h : Stands txn fwd it pos) (hpos : on fwd pos = ⊤ ∨ on fwd pos ∈ keysAt fwd (allKeys txn)) :
    it.read txn = MapCursor.read ⟨txn.merged, pos⟩ := by
  obtain ⟨rfl, hvalid, haligned, hmin⟩ := h
  have hcur : it.current = pos := Lib.Toward.on_inj.mp ((on_current it).trans hmin)
  cases hpos with
  | inl htop =>
    rw [htop] at hmin
    rw [← Lib.Toward.on_finish, Lib.Toward.on_inj] at htop
    have hkey : isKey (finish it.fwd : CursorPos κ) = false := by
      cases it.fwd <;> rfl
    have hdb : it.dbPos = finish it.fwd := Lib.Toward.on_inj.mp
      ((top_le_iff.mp (hmin ▸ min_le_left _ _)).trans Lib.Toward.on_finish.symm)
    have hins : it.insertsPos = finish it.fwd := Lib.Toward.on_inj.mp
      ((top_le_iff.mp (hmin ▸ min_le_right _ _)).trans Lib.Toward.on_finish.symm)
    have hread : it.read txn = none := by
      simp [read, isValid, hdb, hins, hkey]
    rw [hread, htop]
    cases it.fwd <;> rfl
  | inr hmem =>
    obtain ⟨k, hk, he⟩ := hmem
    obtain rfl : pos = .key k := Lib.Toward.on_inj.mp he
    have hval : it.getValue txn k = txn.merged.find k := by
      unfold getValue
      unfold current at hcur
      split_ifs at hcur ⊢ with hin
      · have hp : on it.fwd (.key k) ∈ keysAt it.fwd txn.pending :=
          (hcur ▸ haligned.pending_mem).resolve_left (Lib.Toward.on_key_ne_top k)
        exact (txn.find_merged_pending (Lib.Toward.key_mem_keysAt.mp hp)).symm
      · have hp : k ∉ txn.pending := by
          -- a pending key is under both cursors, where `getKey` prefers the pending value
          intro hp
          have hle := haligned.pending_le _ (Lib.Toward.key_mem_keysAt.mpr hp) hmin.le
          have hsame : it.insertsPos = it.dbPos := by
            rw [hcur]
            exact Lib.Toward.on_inj.mp (le_antisymm hle (hmin ▸ min_le_right _ _))
          exact hin (by simp [inTransaction, hsame])
        exact (txn.find_merged_live (hk.resolve_right hp) hp).symm
    have hok : it.isValid = true := by
      unfold current at hcur
      split_ifs at hcur with hin <;> simp [isValid, hvalid, hcur, isKey]
    rw [read, if_pos hok, hcur]
    change (it.getValue txn k).map _ = _
    rw [hval]
    rfl

/-! ## Notifications -/

/-- What `notifyPut` does: the pending cursor goes back to a key between the cursors. -/
theorem notifyPut_spec (it : MojDbLevelTxnIterator κ) (key : κ) :
    it.notifyPut txn key =
      if on it.fwd it.dbPos ≤ on it.fwd (.key key) ∧ on it.fwd (.key key) < on it.fwd it.insertsPos then
        { it with insertsPos := txn.pendingValues.keys.after (!it.fwd) it.insertsPos }
      else it := by
  obtain ⟨fwd, invalid, dbPos, insertsPos⟩ := it
  cases fwd with
  | true =>
    have hiff : (CursorPos.key key < dbPos ∨ ¬CursorPos.key key < insertsPos) ↔
        ¬(dbPos ≤ CursorPos.key key ∧ CursorPos.key key < insertsPos) := by
      rw [not_and_or, not_le]
    have hdir : (on true dbPos ≤ on true (.key key) ∧ on true (.key key) < on true insertsPos) ↔
        (dbPos ≤ CursorPos.key key ∧ CursorPos.key key < insertsPos) := Iff.rfl
    simp only [notifyPut, hiff, hdir, ite_not, if_true, Bool.not_true]
  | false =>
    have hiff : (CursorPos.key key < insertsPos ∨ CursorPos.key key = insertsPos ∨
        ¬CursorPos.key key < dbPos ∧ ¬CursorPos.key key = dbPos) ↔
        ¬(CursorPos.key key ≤ dbPos ∧ insertsPos < CursorPos.key key) := by
      rw [← or_assoc, ← le_iff_lt_or_eq, ← not_or, ← le_iff_lt_or_eq, not_and_or, not_lt, or_comm]
    have hdir : (on false dbPos ≤ on false (.key key) ∧ on false (.key key) < on false insertsPos) ↔
        (CursorPos.key key ≤ dbPos ∧ insertsPos < CursorPos.key key) := Iff.rfl
    simp only [notifyPut, hiff, hdir, ite_not, Bool.false_eq_true, if_false, Bool.not_false]

theorem allKeys_put (key : κ) (val : ν) (k : κ) :
    k ∈ allKeys (txn.put key val) ↔ k ∈ allKeys txn ∨ k = key := by
  obtain ⟨hsub, hlive⟩ := txn.live_put key val
  rw [allKeys, allKeys, Set.mem_union, Set.mem_union, txn.pending_put]
  constructor
  · intro h
    cases h with
    | inl h => exact (hlive k h).imp .inl id
    | inr h => exact h.imp .inr id
  · intro h
    obtain (h | h) | h := h
    exacts [.inl (hsub h), .inr (.inl h), .inr (.inr h)]

/-- A key put right after a deletion under the position must not lie between the position and the
cursors, which are ahead of it. -/
def PutClear (it : MojDbLevelTxnIterator κ) (pos : CursorPos κ) (key : κ) : Prop :=
  it.invalid = true → on it.fwd pos ≤ on it.fwd (.key key) → ¬ on it.fwd (.key key) < on it.fwd it.current

instance (it : MojDbLevelTxnIterator κ) (pos : CursorPos κ) (key : κ) : Decidable (PutClear it pos key) :=
  inferInstanceAs (Decidable (_ → _ → ¬ _))

/-- **Puts.** -/
theorem follows_put {it : MojDbLevelTxnIterator κ} {pos : CursorPos κ} (h : Follows txn it.fwd it pos)
    (key : κ) (val : ν) (hclear : PutClear it pos key) :
    Follows (txn.put key val) it.fwd (it.notifyPut (txn.put key val) key) pos := by
  obtain ⟨hsub, hlive⟩ := txn.live_put key val
  have hpending : ∀ x, _ := Lib.Toward.mem_keysAt_insert it.fwd (txn.pending_put key val)
  have hall : ∀ x, _ := Lib.Toward.mem_keysAt_insert it.fwd (allKeys_put txn key val)
  obtain ⟨i, hnotify, hback, hstay⟩ : ∃ i, it.notifyPut (txn.put key val) key = { it with insertsPos := i } ∧
      (on it.fwd it.dbPos ≤ on it.fwd (.key key) → on it.fwd (.key key) < on it.fwd it.insertsPos →
        on it.fwd i = on it.fwd (.key key)) ∧
      (¬(on it.fwd it.dbPos ≤ on it.fwd (.key key) ∧ on it.fwd (.key key) < on it.fwd it.insertsPos) →
        on it.fwd i = on it.fwd it.insertsPos) := by
    rw [notifyPut_spec]
    split_ifs with hbetween
    · refine ⟨_, rfl, fun hle hlt => ?_, fun hnot => absurd hbetween hnot⟩
      -- nothing pending lies between the new key and the pending cursor
      have hprev := Lib.Toward.isNext_not.mp
        (SortedSet.after_isNext (txn.put key val).pendingValues.keys (!it.fwd) it.insertsPos)
      refine IsGreatest.unique hprev ⟨.inr ⟨(hpending _).mpr (.inr rfl), hlt⟩, fun x hx => ?_⟩
      cases hx with
      | inl he => exact he ▸ bot_le
      | inr hx =>
        cases (hpending x).mp hx.1 with
        | inr he => exact he.le
        | inl hp =>
          refine le_of_not_gt fun hgt => hx.2.not_ge (h.aligned.pending_le x hp ?_)
          exact (min_le_left _ _).trans (hle.trans hgt.le)
    · exact ⟨_, rfl, fun hle hlt => absurd ⟨hle, hlt⟩ hbetween, fun _ => rfl⟩
  obtain ⟨haligned, hmin⟩ := h.aligned.put (Lib.Toward.keysAt_mono hsub)
    (Lib.Toward.keysAt_subset_insert hlive) hpending hback hstay
  rw [hnotify]
  refine ⟨rfl, haligned, fun hinv => hmin.trans (h.here hinv), fun hinv => ?_⟩
  obtain ⟨hahead, hnot⟩ := h.ahead hinv
  have hput := hclear hinv
  rw [on_current] at hput
  change IsNext _ _ (min (on it.fwd it.dbPos) (on it.fwd i)) ∧ _
  rw [hmin]
  refine ⟨hahead.insert_of_not hall fun hlt => not_lt.mp (hput hlt.le), fun hmem => ?_⟩
  cases (hall _).mp hmem with
  | inl hmem => exact hnot hmem
  | inr he =>
    refine hput he.le ?_
    rw [← he]
    exact hahead.lt_of_ne_top (he ▸ Lib.Toward.on_key_ne_top key)

/-- What `notifyDelete` does to a pending cursor on the key: the cursors at the current key move on; a
pending cursor that is not current moves on alone. -/
theorem notifyDelete_spec (it : MojDbLevelTxnIterator κ) (key : κ) (hkey : it.insertsPos = .key key) :
    ∃ m i, it.notifyDelete txn key = { it with invalid := true, dbPos := m, insertsPos := i } ∧
      (on it.fwd it.dbPos < on it.fwd (.key key) →
        m = it.dbPos ∧ IsNext (keysAt it.fwd txn.pending) (on it.fwd (.key key)) (on it.fwd i)) ∧
      (¬ on it.fwd it.dbPos < on it.fwd (.key key) →
        Aligned.Moved (keysAt it.fwd txn.live) (keysAt it.fwd txn.pending) (on it.fwd it.dbPos)
          (on it.fwd (.key key)) (on it.fwd m) (on it.fwd i)) := by
  obtain ⟨fwd, invalid, dbPos, insertsPos⟩ := it
  subst hkey
  have hdb := skipDeleted_after txn fwd dbPos
  have hins := SortedSet.after_isNext txn.pendingValues.keys fwd (.key key)
  unfold notifyDelete
  rw [if_neg (not_not.mpr rfl)]
  split_ifs with heq
  · have he : on fwd dbPos = on fwd (.key key) := Lib.Toward.on_inj.mpr heq
    exact ⟨_, _, rfl, fun hlt => absurd he hlt.ne, fun hnot => ⟨fun _ => hdb, fun hlt => absurd he hlt.ne', fun _ => hins,
      fun hlt => absurd hlt hnot⟩⟩
  · have hne : on fwd dbPos ≠ on fwd (.key key) := fun he => heq (Lib.Toward.on_inj.mp he)
    exact ⟨_, _, rfl, fun _ => ⟨rfl, hins⟩, fun hnot => ⟨fun hle => absurd (hle.lt_of_ne hne) hnot, fun _ => rfl,
      fun _ => hins, fun hlt => absurd hlt hnot⟩⟩

theorem allKeys_del (key : κ) : allKeys (txn.del key) = allKeys txn \ {key} := by
  rw [allKeys, allKeys, txn.live_del, txn.pending_del, Set.union_sdiff_distrib]

/-- A key may be deleted under the database cursor only when the pending cursor is there too, or the
database cursor is the current one; and under a pending cursor that is not the current one only after a
deletion under the position. -/
def DelClear (it : MojDbLevelTxnIterator κ) (key : κ) : Prop :=
  (it.dbPos = .key key →
    it.insertsPos = .key key ∨ it.invalid = false ∧ on it.fwd it.dbPos < on it.fwd it.insertsPos) ∧
  (it.insertsPos = .key key → it.invalid = false → ¬ on it.fwd it.dbPos < on it.fwd it.insertsPos)

instance (it : MojDbLevelTxnIterator κ) (key : κ) : Decidable (DelClear it key) :=
  inferInstanceAs (Decidable ((_ → _ ∨ _ ∧ _) ∧ (_ → _ → ¬ _)))

/-- **Deletions.** -/
theorem follows_del {it : MojDbLevelTxnIterator κ} {pos : CursorPos κ} (h : Follows txn it.fwd it pos)
    (key : κ) (hclear : DelClear it key) :
    Follows (txn.del key) it.fwd (it.notifyDelete txn key) pos := by
  obtain ⟨hdb, hins⟩ := hclear
  have hlive : keysAt it.fwd (txn.del key).live = keysAt it.fwd txn.live \ {on it.fwd (.key key)} := by
    rw [txn.live_del, Lib.Toward.keysAt_diff]
  have hpending : keysAt it.fwd (txn.del key).pending = keysAt it.fwd txn.pending \ {on it.fwd (.key key)} := by
    rw [txn.pending_del, Lib.Toward.keysAt_diff]
  have hall : keysAt it.fwd (allKeys (txn.del key)) = keysAt it.fwd (allKeys txn) \ {on it.fwd (.key key)} := by
    rw [allKeys_del, Lib.Toward.keysAt_diff]
  have hktop : on it.fwd (.key key) ≠ ⊤ := Lib.Toward.on_key_ne_top key
  by_cases hkey : it.insertsPos = .key key
  · obtain ⟨m, i, hnotify, hahead, hmoved⟩ := notifyDelete_spec txn it key hkey
    rw [hnotify]
    have haligned := h.aligned
    have hhere := h.here
    have hpos := h.ahead
    rw [hkey] at haligned hhere hpos hins
    by_cases hlt : on it.fwd it.dbPos < on it.fwd (.key key)
    · -- the pending cursor is ahead of the database cursor, so that the position is already behind both
      obtain ⟨rfl, hnext⟩ := hahead hlt
      have hinv : it.invalid = true := Bool.of_not_eq_false fun hinv => hins rfl hinv hlt
      obtain ⟨herase, hmin⟩ := haligned.erase_pending hlt hnext
      obtain ⟨hcur, hnot⟩ := hpos hinv
      refine ⟨rfl, by rw [hlive, hpending]; exact herase, fun h => by simp at h, fun _ => ?_⟩
      rw [hall, hmin]
      refine ⟨hcur.diff ?_, fun hmem => hnot hmem.1⟩
      rw [min_eq_left hlt.le]
      exact hlt.ne
    · have hmv := hmoved hlt
      have hnext := hmv.isNext haligned
      rw [min_eq_right (not_lt.mp hlt), ← Lib.Toward.keysAt_union] at hnext
      have hne : ∀ p : CursorPos κ, on it.fwd p = ⊤ ∨ on it.fwd (.key key) < on it.fwd p → on it.fwd p ≠ on it.fwd (.key key) := by
        intro p hp he
        cases hp with
        | inl htop => exact hktop (he.symm.trans htop)
        | inr hlt => exact hlt.ne' he
      have hmincur := min_eq_right (not_lt.mp hlt)
      have hm := (hmv.main_cases haligned).imp id And.right
      have hi := (hmv.pending_cases haligned).imp id And.right
      rw [hmincur] at hm hi hhere hpos
      refine ⟨rfl, ?_, fun h => by simp at h, fun _ => ?_⟩
      · rw [hlive, hpending]
        exact (hmv.aligned haligned).erase (hne i hi) fun _ => hne m hm
      · rw [hall]
        cases hinv : it.invalid with
        | false =>
          have hcur := hhere hinv
          exact ⟨hnext.diff_next hktop (.inl hcur.symm), fun hmem => hmem.2 hcur.symm⟩
        | true =>
          obtain ⟨hcur, hnot⟩ := hpos hinv
          exact ⟨hnext.diff_next hktop (.inr hcur), fun hmem => hnot hmem.1⟩
  · have hstay : it.notifyDelete txn key = it := if_pos hkey
    have hmain : it.dbPos = .key key → it.invalid = false ∧ on it.fwd it.dbPos < on it.fwd it.insertsPos :=
      fun he => (hdb he).resolve_left hkey
    rw [hstay]
    refine ⟨rfl, ?_, h.here, fun hinv => ?_⟩
    · rw [hlive, hpending]
      exact h.aligned.erase (fun he => hkey (Lib.Toward.on_inj.mp he)) fun hlt he =>
        (hmain (Lib.Toward.on_inj.mp he)).2.asymm hlt
    · obtain ⟨hcur, hnot⟩ := h.ahead hinv
      rw [hall]
      refine ⟨hcur.diff fun he => ?_, fun hmem => hnot hmem.1⟩
      obtain hmin | hmin := min_choice (on it.fwd it.dbPos) (on it.fwd it.insertsPos)
      · have hfalse := (hmain (Lib.Toward.on_inj.mp (hmin.symm.trans he))).1
        simp [hinv] at hfalse
      · exact hkey (Lib.Toward.on_inj.mp (hmin.symm.trans he))

end MojDbLevelTxnIterator

end Db8
