import Db8.Core.MojObjectWriter
import Db8.Lib.Run

/-!
# Engine.MojDbLevelSeq

A storage sequence: values from a counter, and a bound on them that is stored ahead, a page at a time. The sequence of
the sandwich engine is the same, with its key in the main shard.

* `MojDbLevelSeq`   — the open sequence with the calls of `get` on it, each at a point between two atomic steps.
* `SeqStore.step`   — an atomic step of a call; open, close, crash.
* `Inv`             — what was returned is below the counter, the cached bound and the stored bound.
* `unique_of_run`   — no value is returned twice, and calls that do not overlap return increasing values.

The check of the stored value against the cached one, in debug builds, is a put that fails.
-/

namespace Db8

open Lib

namespace MojDbLevelSeq

def SequenceAllocationPage : UInt64 := 100

/-- How a put ends; one that fails can have reached the store. -/
inductive PutResult where
  | ok
  | failed (written : Bool)
  deriving DecidableEq

/-- The atomic step of `get` that comes next. -/
inductive Phase where
  | compare
  | lock
  /-- The mutex is held from here on. -/
  | reread
  | put
  | publish
  | done
  deriving DecidableEq

def Phase.holdsLock (p : Phase) : Prop := p = .reread ∨ p = .put ∨ p = .publish

structure Call where
  val : UInt64
  phase : Phase
  /-- The values that had been returned when the call began. -/
  before : List Int64

/-- A value returned by a call. -/
structure Result where
  before : List Int64
  val : Int64

end MojDbLevelSeq

open MojDbLevelSeq

/-- `calls` are those since the sequence was opened, in the order in which they fetched. -/
structure MojDbLevelSeq where
  next : UInt64
  allocated : UInt64
  /-- The call that holds the mutex. -/
  allocationLock : Option Nat
  calls : List Call

namespace MojDbLevelSeq

def open_ (stored : Option Int64) : MojDbLevelSeq :=
  let next := (stored.getD 0).toUInt64
  ⟨next, next, none, []⟩

/-- Moves a call to a phase. -/
def turn (q : MojDbLevelSeq) (i : Nat) (c : Call) (phase : Phase) : MojDbLevelSeq :=
  { q with calls := q.calls.set i { c with phase } }

end MojDbLevelSeq

/-- The stored bound, the sequence while it is open, and all values returned so far. -/
structure SeqStore where
  stored : Option Int64
  seq : Option MojDbLevelSeq
  results : List Result

namespace SeqStore

inductive Action where
  /-- `open`; when it cannot read the stored value, the destructor closes the sequence with a put. -/
  | open_ (reads : Bool) (atDestruction : PutResult)
  | fetch
  | compare (i : Nat)
  | lock (i : Nat)
  | reread (i : Nat)
  | put (i : Nat) (r : PutResult)
  | publish (i : Nat)
  | close (r : PutResult)
  | destroy (r : PutResult)
  | crash

def start (stored : Option Int64) : SeqStore := ⟨stored, none, []⟩

def vals (s : SeqStore) : List Int64 := s.results.map (·.val)

def put (stored : Option Int64) (next : UInt64) : PutResult → Option Int64
  | .ok => some next.toInt64
  | .failed true => some next.toInt64
  | .failed false => stored

/-- The call is over and returned its value. -/
def returns (s : SeqStore) (q : MojDbLevelSeq) (i : Nat) (c : Call) : SeqStore :=
  { s with seq := some (q.turn i c .done), results := s.results ++ [⟨c.before, c.val.toInt64⟩] }

/-- One atomic step of the call `i`, which is `c`. -/
def stepCall (s : SeqStore) (q : MojDbLevelSeq) (i : Nat) (c : Call) : Action → SeqStore
  | .compare _ =>
    if c.phase ≠ .compare then s
    else if q.allocated ≤ c.val then { s with seq := some (q.turn i c .lock) }
    else s.returns q i c
  | .lock _ =>
    if c.phase ≠ .lock ∨ q.allocationLock ≠ none then s
    else { s with seq := some { q.turn i c .reread with allocationLock := some i } }
  | .reread _ =>
    if c.phase ≠ .reread then s
    else if q.allocated ≤ c.val then { s with seq := some (q.turn i c .put) }
    else s.returns { q with allocationLock := none } i c
  | .put _ r =>
    if c.phase ≠ .put then s
    else
      let stored := put s.stored (c.val + SequenceAllocationPage) r
      if r = .ok then { s with stored, seq := some (q.turn i c .publish) }
      else { s with stored, seq := some { q.turn i c .done with allocationLock := none } }
  | .publish _ =>
    if c.phase ≠ .publish then s
    else s.returns { q with allocated := c.val + SequenceAllocationPage, allocationLock := none } i c
  | _ => s

/-- A step of the call with the number, if there is one. -/
def stepAt (s : SeqStore) (i : Nat) (a : Action) : SeqStore :=
  match s.seq with
  | none => s
  | some q =>
    match q.calls[i]? with
    | none => s
    | some c => s.stepCall q i c a

/-- No call of `get` is under way. -/
def quiet (q : MojDbLevelSeq) : Bool := q.calls.all fun c => c.phase = .done

def step (s : SeqStore) (a : Action) : SeqStore :=
  match a with
  | .compare i | .lock i | .reread i | .put i _ | .publish i => s.stepAt i a
  | .open_ reads r =>
    match s.seq with
    | some _ => s
    | none =>
      if reads then { s with seq := some (MojDbLevelSeq.open_ s.stored) }
      -- the counter of a new sequence is 0
      else { s with stored := put s.stored 0 r }
  | .fetch =>
    match s.seq with
    | none => s
    | some q =>
      { s with seq := some { q with next := q.next + 1, calls := q.calls ++ [⟨q.next, .compare, s.vals⟩] } }
  | .close r =>
    match s.seq with
    | none => s
    | some q =>
      if quiet q then { s with stored := put s.stored q.next r, seq := if r = .ok then none else some q } else s
  | .destroy r =>
    match s.seq with
    | none => s
    | some q => if quiet q then { s with stored := put s.stored q.next r, seq := none } else s
  | .crash => { s with seq := none }

/-- No value is returned twice, and each is above those that had been returned when its call began. -/
structure Unique (s : SeqStore) : Prop where
  nodup : s.vals.Nodup
  increasing : ∀ r ∈ s.results, ∀ u ∈ r.before, u < r.val

/-- The counter as the next `open` will set it. -/
def bound (s : SeqStore) : UInt64 := (s.stored.getD 0).toUInt64

/-! ## Numbers -/

theorem toInt_toInt64 {v : UInt64} (h : v.toNat < 2 ^ 63) : v.toInt64.toInt = v.toNat := by
  have hval := toNat_toUInt64 v.toInt64
  have hlt := v.toInt64.toInt_lt
  have hle := v.toInt64.le_toInt
  rw [UInt64.toUInt64_toInt64] at hval
  split_ifs at hval <;> omega

theorem toNat_page {v : UInt64} (h : v.toNat + 100 < 2 ^ 63) : (v + SequenceAllocationPage).toNat = v.toNat + 100 := by
  have hpage : SequenceAllocationPage.toNat = 100 := rfl
  rw [UInt64.toNat_add, hpage]
  exact Nat.mod_eq_of_lt (by omega)

/-! ## The invariant -/

/-- A call fetched at its place in line, and what it has yet to return is new. -/
structure CallInv (s : SeqStore) (q : MojDbLevelSeq) (i : Nat) (c : Call) : Prop where
  at_val : c.val.toNat + q.calls.length = q.next.toNat + i
  room : c.val.toNat + 100 < 2 ^ 63
  before_lt : ∀ u ∈ c.before, u.toInt < c.val.toNat
  fresh : c.phase ≠ .done → c.val.toInt64 ∉ s.vals
  cached_le : c.phase ≠ .done → q.allocated ≤ s.bound
  holder : c.phase.holdsLock → q.allocationLock = some i
  above : c.phase = .put ∨ c.phase = .publish → q.allocated ≤ c.val
  written : c.phase = .publish → s.stored = some (c.val + SequenceAllocationPage).toInt64

structure SeqInv (s : SeqStore) (q : MojDbLevelSeq) : Prop where
  next_above : ∀ v ∈ s.vals, v.toInt < q.next.toNat
  cached_above : ∀ v ∈ s.vals, v.toInt < q.allocated.toNat
  calls : ∀ (i : Nat) c, q.calls[i]? = some c → CallInv s q i c

structure Inv (s : SeqStore) : Prop where
  unique : Unique s
  stored_above : ∀ v ∈ s.vals, v.toInt < s.bound.toNat
  seq : ∀ q, s.seq = some q → SeqInv s q

theorem inv_start (stored : Option Int64) : Inv (start stored) :=
  ⟨⟨List.nodup_nil, fun _ h => nomatch h⟩, fun _ h => (nomatch h), fun _ h => nomatch h⟩

variable {s : SeqStore} {q : MojDbLevelSeq} {i : Nat} {c : Call}

theorem getElem?_turn (hc : q.calls[i]? = some c) {phase : Phase} {j : Nat} {d : Call}
    (hd : (q.turn i c phase).calls[j]? = some d) : j = i ∧ d = { c with phase } ∨ j ≠ i ∧ q.calls[j]? = some d := by
  rw [MojDbLevelSeq.turn, List.getElem?_set] at hd
  by_cases hj : i = j
  · subst hj
    rw [if_pos rfl, if_pos (List.getElem?_eq_some_iff.mp hc).1] at hd
    exact .inl ⟨rfl, (Option.some.inj hd).symm⟩
  · rw [if_neg hj] at hd
    exact .inr ⟨fun h => hj h.symm, hd⟩

/-- What was stored is above the cached bound, so that all that was returned is below it. -/
theorem bound_of_stored {next : UInt64} (h : s.stored = some next.toInt64) : s.bound = next := by
  rw [bound, h]
  exact UInt64.toUInt64_toInt64 next

/-- A call that returns: its value is new, above those it found returned, and below all bounds. -/
theorem inv_returns (h : Inv s) (hseq : s.seq = some q) (hc : q.calls[i]? = some c) (hactive : c.phase ≠ .done)
    {q' : MojDbLevelSeq} (hnext : q'.next = q.next) (hcalls : q'.calls = q.calls)
    (hallocated : q.allocated ≤ q'.allocated) (hbelow : c.val < q'.allocated) (hstored : c.val < s.bound)
    (hothers : ∀ (j : Nat) d, q.calls[j]? = some d → j ≠ i → CallInv s q' j d) : Inv (s.returns q' i c) := by
  have hq := h.seq q hseq
  have hi := hq.calls i c hc
  have hlen := (List.getElem?_eq_some_iff.mp hc).1
  have hint : c.val.toInt64.toInt = c.val.toNat := toInt_toInt64 (by have := hi.room; omega)
  have hvals : (s.returns q' i c).vals = s.vals ++ [c.val.toInt64] := by
    simp [vals, returns]
  have hmem : ∀ {v}, v ∈ (s.returns q' i c).vals → v ∈ s.vals ∨ v = c.val.toInt64 := by
    intro v hv
    rw [hvals] at hv
    exact (List.mem_append.mp hv).imp_right List.mem_singleton.mp
  rw [UInt64.le_iff_toNat_le] at hallocated
  rw [UInt64.lt_iff_toNat_lt] at hbelow hstored
  refine ⟨⟨?_, ?_⟩, ?_, ?_⟩
  · rw [hvals]
    exact List.nodup_append.mpr ⟨h.unique.nodup, List.nodup_singleton _, fun v hv w hw =>
      fun he => hi.fresh hactive (List.mem_singleton.mp hw ▸ he ▸ hv)⟩
  · intro r hr u hu
    cases List.mem_append.mp hr with
    | inl hr => exact h.unique.increasing r hr u hu
    | inr hr =>
      rw [List.mem_singleton.mp hr] at hu ⊢
      rw [Int64.lt_iff_toInt_lt, hint]
      exact hi.before_lt u hu
  · intro v hv
    change v.toInt < s.bound.toNat
    cases hmem hv with
    | inl hv => exact h.stored_above v hv
    | inr he => rw [he, hint]; omega
  · intro p hp
    obtain rfl := Option.some.inj hp
    have hturn : (q'.turn i c .done).calls.length = q.calls.length := by
      rw [MojDbLevelSeq.turn, List.length_set, hcalls]
    refine ⟨fun v hv => ?_, fun v hv => ?_, fun j d hd => ?_⟩
    · change v.toInt < q'.next.toNat
      rw [hnext]
      cases hmem hv with
      | inl hv => exact hq.next_above v hv
      | inr he =>
        have hat := hi.at_val
        rw [he, hint]
        omega
    · change v.toInt < q'.allocated.toNat
      cases hmem hv with
      | inl hv =>
        have habove := hq.cached_above v hv
        omega
      | inr he => rw [he, hint]; omega
    · cases getElem?_turn (hcalls ▸ hc) hd with
      | inl hthis =>
        obtain ⟨rfl, rfl⟩ := hthis
        refine ⟨?_, hi.room, hi.before_lt, fun hne => absurd rfl hne, fun hne => absurd rfl hne, ?_, ?_, ?_⟩
        · rw [hturn]
          change c.val.toNat + q.calls.length = q'.next.toNat + j
          rw [hnext]
          exact hi.at_val
        · intro hhold
          simp [Phase.holdsLock] at hhold
        · intro habove
          simp at habove
        · intro hwritten
          cases hwritten
      | inr hother =>
        obtain ⟨hj, hd⟩ := hother
        rw [hcalls] at hd
        have hinv := hothers j d hd hj
        have hdlen := (List.getElem?_eq_some_iff.mp hd).1
        refine ⟨?_, hinv.room, hinv.before_lt, fun hne hmemd => ?_, hinv.cached_le, hinv.holder, hinv.above, hinv.written⟩
        · rw [hturn, ← hcalls]
          exact hinv.at_val
        · cases hmem hmemd with
          | inl hold => exact hinv.fresh hne hold
          | inr he =>
            -- two calls at different places fetched different values
            have hval : d.val = c.val := by
              rw [← UInt64.toUInt64_toInt64 d.val, he, UInt64.toUInt64_toInt64]
            have hat := hi.at_val
            have hat' := hinv.at_val
            rw [hcalls, hnext, hval] at hat'
            omega

/-- A call that goes on to its next step, or fails. -/
theorem inv_turn (h : Inv s) (hseq : s.seq = some q) (hc : q.calls[i]? = some c) {phase : Phase}
    {stored : Option Int64} {lock : Option Nat} (hstored : ∀ v ∈ s.vals, v.toInt < (stored.getD 0).toUInt64.toNat)
    (hthis : CallInv { s with stored } { q with allocationLock := lock } i { c with phase })
    (hothers : ∀ (j : Nat) d, q.calls[j]? = some d → j ≠ i →
      CallInv { s with stored } { q with allocationLock := lock } j d) :
    Inv { s with stored, seq := some { q.turn i c phase with allocationLock := lock } } := by
  have hq := h.seq q hseq
  have hkeep : ∀ {j : Nat} {d : Call}, CallInv { s with stored } { q with allocationLock := lock } j d →
      CallInv { s with stored, seq := some { q.turn i c phase with allocationLock := lock } }
        { q.turn i c phase with allocationLock := lock } j d := by
    intro j d hd
    refine ⟨?_, hd.room, hd.before_lt, hd.fresh, hd.cached_le, hd.holder, hd.above, hd.written⟩
    have hat := hd.at_val
    change d.val.toNat + (q.calls.set i { c with phase }).length = q.next.toNat + j
    rw [List.length_set]
    exact hat
  refine ⟨⟨h.unique.nodup, h.unique.increasing⟩, hstored, fun p hp => ?_⟩
  obtain rfl := Option.some.inj hp
  refine ⟨hq.next_above, hq.cached_above, fun j d hd => hkeep ?_⟩
  cases getElem?_turn hc hd with
  | inl heq =>
    obtain ⟨rfl, rfl⟩ := heq
    exact hthis
  | inr hother => exact hothers j d hother.2 hother.1

/-! ## The steps -/

/-- While one call holds the mutex no other does. -/
theorem not_holds (h : SeqInv s q) (hlock : q.allocationLock = some i ∨ q.allocationLock = none) {j : Nat} {d : Call}
    (hd : q.calls[j]? = some d) (hj : j ≠ i) : ¬d.phase.holdsLock := by
  intro hhold
  have hsome := (h.calls j d hd).holder hhold
  cases hlock with
  | inl hlock =>
    rw [hlock] at hsome
    exact hj (Option.some.inj hsome).symm
  | inr hlock =>
    rw [hlock] at hsome
    cases hsome

/-- A call that does not hold the mutex does not depend on it. -/
theorem callInv_of_not_holds {s' : SeqStore} {q' : MojDbLevelSeq} (h : CallInv s q i c) (hnot : ¬c.phase.holdsLock)
    (hvals : s'.vals = s.vals) (hnext : q'.next = q.next) (hcalls : q'.calls = q.calls)
    (hcached : c.phase ≠ .done → q'.allocated ≤ s'.bound) : CallInv s' q' i c where
  at_val := by rw [hnext, hcalls]; exact h.at_val
  room := h.room
  before_lt := h.before_lt
  fresh := by rw [hvals]; exact h.fresh
  cached_le := hcached
  holder hhold := absurd hhold hnot
  above habove := absurd (.inr habove) hnot
  written hpublish := absurd (.inr (.inr hpublish)) hnot

theorem put_bound (stored : Option Int64) (next : UInt64) (r : PutResult) :
    ((put stored next r).getD 0).toUInt64 = next ∨ r = .failed false ∧ put stored next r = stored := by
  cases r with
  | ok => exact .inl (UInt64.toUInt64_toInt64 next)
  | failed written =>
    cases written with
    | true => exact .inl (UInt64.toUInt64_toInt64 next)
    | false => exact .inr ⟨rfl, rfl⟩

/-- What a put of the next page leaves stored is above all that was returned. -/
theorem stored_above_put (h : Inv s) (hq : SeqInv s q) (hi : CallInv s q i c) (hphase : c.phase = .put) (r : PutResult) :
    (∀ v ∈ s.vals, v.toInt < ((put s.stored (c.val + SequenceAllocationPage) r).getD 0).toUInt64.toNat) ∧
      q.allocated ≤ ((put s.stored (c.val + SequenceAllocationPage) r).getD 0).toUInt64 := by
  have habove := hi.above (.inl hphase)
  have hcached := hi.cached_le (by rw [hphase]; decide)
  have hpage := toNat_page hi.room
  rw [UInt64.le_iff_toNat_le] at habove
  cases put_bound s.stored (c.val + SequenceAllocationPage) r with
  | inl hbound =>
    rw [hbound, UInt64.le_iff_toNat_le]
    refine ⟨fun v hv => ?_, by omega⟩
    have hlt := hq.cached_above v hv
    omega
  | inr hfailed =>
    rw [hfailed.2]
    exact ⟨h.stored_above, hcached⟩

section Call

variable (h : Inv s) (hseq : s.seq = some q) (hc : q.calls[i]? = some c)

include h hseq hc

theorem inv_compare : Inv (s.stepCall q i c (.compare i)) := by
  have hq := h.seq q hseq
  have hi := hq.calls i c hc
  unfold stepCall
  dsimp only
  split_ifs with hphase hle
  · exact h
  · have hactive : c.phase ≠ .done := by rw [not_not.mp hphase]; decide
    refine inv_turn h hseq hc h.stored_above ?_ fun j d hd _ => hq.calls j d hd
    exact ⟨hi.at_val, hi.room, hi.before_lt, fun _ => hi.fresh hactive, fun _ => hi.cached_le hactive,
      by simp [Phase.holdsLock], by simp, by simp⟩
  · have hactive : c.phase ≠ .done := by rw [not_not.mp hphase]; decide
    have hlt : c.val < q.allocated := UInt64.not_le.mp hle
    exact inv_returns h hseq hc hactive rfl rfl (UInt64.le_refl _) hlt
      (UInt64.lt_of_lt_of_le hlt (hi.cached_le hactive)) fun j d hd _ => hq.calls j d hd

theorem inv_lock : Inv (s.stepCall q i c (.lock i)) := by
  have hq := h.seq q hseq
  have hi := hq.calls i c hc
  unfold stepCall
  dsimp only
  split_ifs with hphase
  · exact h
  · obtain ⟨hphase, hnone⟩ := not_or.mp hphase
    have hactive : c.phase ≠ .done := by rw [not_not.mp hphase]; decide
    refine inv_turn h hseq hc h.stored_above ?_ fun j d hd hj => ?_
    · exact ⟨hi.at_val, hi.room, hi.before_lt, fun _ => hi.fresh hactive, fun _ => hi.cached_le hactive, fun _ => rfl,
        by simp, by simp⟩
    · exact callInv_of_not_holds (hq.calls j d hd) (not_holds hq (.inr (not_not.mp hnone)) hd hj) rfl rfl rfl
        (hq.calls j d hd).cached_le

theorem inv_reread : Inv (s.stepCall q i c (.reread i)) := by
  have hq := h.seq q hseq
  have hi := hq.calls i c hc
  unfold stepCall
  dsimp only
  split_ifs with hphase hle
  · exact h
  · have hactive : c.phase ≠ .done := by rw [not_not.mp hphase]; decide
    have hlock := hi.holder (.inl (not_not.mp hphase))
    refine inv_turn h hseq hc h.stored_above ?_ fun j d hd _ => hq.calls j d hd
    exact ⟨hi.at_val, hi.room, hi.before_lt, fun _ => hi.fresh hactive, fun _ => hi.cached_le hactive, fun _ => hlock,
      fun _ => hle, by simp⟩
  · have hactive : c.phase ≠ .done := by rw [not_not.mp hphase]; decide
    have hlock := hi.holder (.inl (not_not.mp hphase))
    have hlt : c.val < q.allocated := UInt64.not_le.mp hle
    refine inv_returns h hseq hc hactive rfl rfl (UInt64.le_refl _) hlt
      (UInt64.lt_of_lt_of_le hlt (hi.cached_le hactive)) fun j d hd hj => ?_
    exact callInv_of_not_holds (hq.calls j d hd) (not_holds hq (.inl hlock) hd hj) rfl rfl rfl
      (hq.calls j d hd).cached_le

theorem inv_put (r : PutResult) : Inv (s.stepCall q i c (.put i r)) := by
  have hq := h.seq q hseq
  have hi := hq.calls i c hc
  unfold stepCall
  dsimp only
  split_ifs with hphase hr
  · exact h
  · have hput : c.phase = .put := not_not.mp hphase
    have hactive : c.phase ≠ .done := by rw [hput]; decide
    have hlock := hi.holder (.inr (.inl hput))
    obtain ⟨hstored, hcached⟩ := stored_above_put h hq hi hput r
    refine inv_turn h hseq hc hstored ?_ fun j d hd hj => ?_
    · exact ⟨hi.at_val, hi.room, hi.before_lt, fun _ => hi.fresh hactive, fun _ => hcached, fun _ => hlock,
        fun _ => hi.above (.inl hput), fun _ => by rw [hr]; rfl⟩
    · exact callInv_of_not_holds (hq.calls j d hd) (not_holds hq (.inl hlock) hd hj) rfl rfl rfl fun _ => hcached
  · have hput : c.phase = .put := not_not.mp hphase
    have hlock := hi.holder (.inr (.inl hput))
    obtain ⟨hstored, hcached⟩ := stored_above_put h hq hi hput r
    refine inv_turn h hseq hc hstored ?_ fun j d hd hj => ?_
    · exact ⟨hi.at_val, hi.room, hi.before_lt, fun hne => absurd rfl hne, fun hne => absurd rfl hne,
        by simp [Phase.holdsLock], by simp, by simp⟩
    · exact callInv_of_not_holds (hq.calls j d hd) (not_holds hq (.inl hlock) hd hj) rfl rfl rfl fun _ => hcached

theorem inv_publish : Inv (s.stepCall q i c (.publish i)) := by
  have hq := h.seq q hseq
  have hi := hq.calls i c hc
  unfold stepCall
  dsimp only
  split_ifs with hphase
  · exact h
  · have hpublish : c.phase = .publish := not_not.mp hphase
    have hactive : c.phase ≠ .done := by rw [hpublish]; decide
    have hlock := hi.holder (.inr (.inr hpublish))
    have hbound := bound_of_stored (hi.written hpublish)
    have habove := hi.above (.inr hpublish)
    have hpage := toNat_page hi.room
    have hlt : c.val < c.val + SequenceAllocationPage := by
      rw [UInt64.lt_iff_toNat_lt]
      omega
    refine inv_returns h hseq hc hactive rfl rfl (UInt64.le_trans habove (UInt64.le_of_lt hlt)) hlt (hbound ▸ hlt)
      fun j d hd hj => ?_
    exact callInv_of_not_holds (hq.calls j d hd) (not_holds hq (.inl hlock) hd hj) rfl rfl rfl
      fun _ => UInt64.le_of_eq hbound.symm

end Call

/-- No `open` fails to read the stored value and then puts 0 there; a call begins while the cached bound is stored, and
below the last page of the integers. -/
def Safe (s : SeqStore) : Action → Prop
  | .open_ reads r => s.seq = none → reads = true ∨ r = .failed false
  | .fetch => ∀ q, s.seq = some q → q.allocated ≤ s.bound ∧ q.next.toNat + 100 < 2 ^ 63
  | _ => True

theorem inv_open (h : Inv s) (hseq : s.seq = none) {reads : Bool} {r : PutResult} (hsafe : Safe s (.open_ reads r)) :
    Inv (s.step (.open_ reads r)) := by
  obtain ⟨stored, seq, results⟩ := s
  obtain rfl : seq = none := hseq
  cases reads with
  | true =>
    refine ⟨⟨h.unique.nodup, h.unique.increasing⟩, h.stored_above, fun p hp => ?_⟩
    obtain rfl := Option.some.inj hp
    exact ⟨h.stored_above, h.stored_above, fun _ _ hc => nomatch hc⟩
  | false =>
    have hr : r = .failed false := (hsafe rfl).resolve_left (by decide)
    rw [hr]
    exact h

theorem inv_fetch (h : Inv s) (hseq : s.seq = some q) (hsafe : Safe s .fetch) : Inv (s.step .fetch) := by
  have hq := h.seq q hseq
  obtain ⟨hcached, hroom⟩ := hsafe q hseq
  have hone : (1 : UInt64).toNat = 1 := rfl
  have hnext : (q.next + 1).toNat = q.next.toNat + 1 := by
    rw [UInt64.toNat_add, hone]
    exact Nat.mod_eq_of_lt (by omega)
  unfold step
  simp only [hseq]
  refine ⟨⟨h.unique.nodup, h.unique.increasing⟩, h.stored_above, fun p hp => ?_⟩
  obtain rfl := Option.some.inj hp
  refine ⟨fun v hv => ?_, hq.cached_above, fun j d hd => ?_⟩
  · have hlt := hq.next_above v hv
    change v.toInt < (q.next + 1).toNat
    omega
  · change (q.calls ++ [⟨q.next, .compare, s.vals⟩])[j]? = some d at hd
    rw [List.getElem?_append] at hd
    split_ifs at hd with hj
    · have hold := hq.calls j d hd
      refine ⟨?_, hold.room, hold.before_lt, hold.fresh, hold.cached_le, hold.holder, hold.above, hold.written⟩
      have hat := hold.at_val
      simp only [List.length_append, List.length_singleton, hnext]
      omega
    · have hlast : j - q.calls.length = 0 := by
        have hlt := (List.getElem?_eq_some_iff.mp hd).1
        rw [List.length_singleton] at hlt
        omega
      rw [hlast] at hd
      obtain rfl := Option.some.inj hd
      refine ⟨?_, hroom, hq.next_above, fun _ hmem => ?_, fun _ => hcached, by simp [Phase.holdsLock], by simp, by simp⟩
      · simp only [List.length_append, List.length_singleton, hnext]
        omega
      · have hlt : q.next.toInt64.toInt < q.next.toNat := hq.next_above _ hmem
        rw [toInt_toInt64 (show q.next.toNat < 2 ^ 63 by omega)] at hlt
        omega

/-- The counter is above all that was returned. -/
theorem stored_above_close (h : Inv s) (hseq : s.seq = some q) (r : PutResult) :
    ∀ v ∈ s.vals, v.toInt < ((put s.stored q.next r).getD 0).toUInt64.toNat := by
  intro v hv
  cases put_bound s.stored q.next r with
  | inl hbound =>
    rw [hbound]
    exact (h.seq q hseq).next_above v hv
  | inr hfailed =>
    rw [hfailed.2]
    exact h.stored_above v hv

theorem inv_close (h : Inv s) (r : PutResult) : Inv (s.step (.close r)) := by
  unfold step
  dsimp only
  cases hseq : s.seq with
  | none => exact h
  | some q =>
    have hq := h.seq q hseq
    dsimp only
    split_ifs with hquiet hr
    · exact ⟨⟨h.unique.nodup, h.unique.increasing⟩, stored_above_close h hseq r, fun p hp => nomatch hp⟩
    · refine ⟨⟨h.unique.nodup, h.unique.increasing⟩, stored_above_close h hseq r, fun p hp => ?_⟩
      obtain rfl := Option.some.inj hp
      refine ⟨hq.next_above, hq.cached_above, fun j d hd => ?_⟩
      have hold := hq.calls j d hd
      have hdone : d.phase = .done := of_decide_eq_true (List.all_eq_true.mp hquiet d (List.mem_of_getElem? hd))
      exact ⟨hold.at_val, hold.room, hold.before_lt, fun hne => absurd hdone hne, fun hne => absurd hdone hne,
        by simp [Phase.holdsLock, hdone], by simp [hdone], by simp [hdone]⟩
    · exact h

theorem inv_destroy (h : Inv s) (r : PutResult) : Inv (s.step (.destroy r)) := by
  unfold step
  dsimp only
  cases hseq : s.seq with
  | none => exact h
  | some q =>
    dsimp only
    split_ifs with hquiet
    · exact ⟨⟨h.unique.nodup, h.unique.increasing⟩, stored_above_close h hseq r, fun p hp => nomatch hp⟩
    · exact h

theorem inv_stepAt (h : Inv s) {a : Action}
    (hstep : ∀ {q c}, s.seq = some q → q.calls[i]? = some c → Inv (s.stepCall q i c a)) : Inv (s.stepAt i a) := by
  unfold stepAt
  cases hseq : s.seq with
  | none => exact h
  | some q =>
    dsimp only
    cases hc : q.calls[i]? with
    | none => exact h
    | some c => exact hstep hseq hc

theorem inv_step (s : SeqStore) (a : Action) (h : Inv s) (hsafe : Safe s a) : Inv (s.step a) := by
  cases a with
  | open_ reads r =>
    cases hseq : s.seq with
    | none => exact inv_open h hseq hsafe
    | some q =>
      unfold step
      simp only [hseq]
      exact h
  | fetch =>
    cases hseq : s.seq with
    | none =>
      unfold step
      simp only [hseq]
      exact h
    | some q => exact inv_fetch h hseq hsafe
  | compare i => exact inv_stepAt h (inv_compare h)
  | lock i => exact inv_stepAt h (inv_lock h)
  | reread i => exact inv_stepAt h (inv_reread h)
  | put i r => exact inv_stepAt h fun hseq hc => inv_put h hseq hc r
  | publish i => exact inv_stepAt h (inv_publish h)
  | close r => exact inv_close h r
  | destroy r => exact inv_destroy h r
  | crash => exact ⟨⟨h.unique.nodup, h.unique.increasing⟩, h.stored_above, fun p hp => nomatch hp⟩

/-- **No value is returned twice, and calls that do not overlap return increasing values**, whatever the interleaving,
the puts that fail and the crashes. -/
theorem unique_of_run (stored : Option Int64) (acts : List Action) (h : Along step Safe (start stored) acts) :
    (run step (start stored) acts).Unique :=
  (Along.invariant Inv inv_step (inv_start stored) h).unique

/-! ### A sequence that is opened again -/

/-- A call alone, past the bound. -/
def getAlone (i : Nat) : List Action := [.fetch, .compare i, .lock i, .reread i, .put i .ok, .publish i]

/-- Two calls at once and a crash. -/
theorem unique_of_run_crash :
    (run step (start none)
      ([.open_ true .ok, .fetch, .fetch, .compare 1, .lock 1, .compare 0, .reread 1, .put 1 .ok, .crash,
        .open_ true .ok] ++ getAlone 0)).Unique := by
  refine unique_of_run _ _ ?_
  simp only [getAlone, List.cons_append, List.nil_append, Along.cons_iff, Along.nil, Safe]
  decide

/-- A value is returned, the sequence is closed, and then it cannot be read once. Or the put of a `close` fails after it
has reached the store, and the sequence stays in use. -/
theorem not_unique_of_run :
    ¬(run step (start none) ([.open_ true .ok] ++ getAlone 0 ++ [.close .ok, .open_ false .ok, .open_ true .ok] ++
      getAlone 0)).Unique ∧
    ¬(run step (start none) ([.open_ true .ok] ++ getAlone 0 ++ [.close (.failed true), .fetch, .compare 1, .crash,
      .open_ true .ok] ++ getAlone 0)).Unique := by
  constructor
  · intro h
    exact absurd h.nodup (by decide)
  · intro h
    exact absurd h.nodup (by decide)

end SeqStore

end Db8
