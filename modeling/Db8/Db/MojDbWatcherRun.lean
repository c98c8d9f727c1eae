import Db8.Db.MojDbWatcher
import Db8.Lib.Run

/-!
# Db.MojDbWatcherRun

A watcher between the threads that use it: the query that registers it, the commits that fire it, the
cursor that activates it, the client that cancels it, the index that abandons it, and the shards.
Every entry point holds the mutex of the watcher, so that a run is a list of entry points.

* `WatcherSystem`     — the watcher, what its index and the two signals know of it, and what was done.
* `step`              — one entry point. `shardCall` is the shard signal picking the watcher up; the
  watcher's own part, `shardStatusChanged`, comes later.
* `Inv`, `inv_step`   — a watcher that is not invalid is registered with the index it points to.
* `signals_of_run`    — one signal at most, none behind the end, no key lost that is within the limit.
-/

namespace Db8

open Lib

/-- `watching` are the indexes that have the watcher in `m_watcherVec`. Of each call of `cancelWatch`,
`cancels` has the index and whether it had the watcher; a call through a null pointer has none, and
ends the process. -/
structure WatcherSystem where
  watcher : MojDbWatcher
  index : Option Nat
  adding : Option Nat
  initialised : Bool
  watching : List Nat
  slotConnected : Bool
  shardCalls : Nat
  signals : Nat
  cancelled : Bool
  abandoned : Bool
  cancels : List (Option Nat × Bool)
  crashed : Bool
  deriving DecidableEq

namespace WatcherSystem

/-- `MojDbWatcher(handler)`. -/
def start : WatcherSystem where
  watcher := ⟨[], false, [], [], .invalid⟩
  index := none
  adding := none
  initialised := false
  watching := []
  slotConnected := false
  shardCalls := 0
  signals := 0
  cancelled := false
  abandoned := false
  cancels := []
  crashed := false

variable (s : WatcherSystem)

/-- `invalidate`, and whether it returned without an error: `cancelWatch` fails when the index does
not have the watcher. -/
def invalidate : WatcherSystem × Bool :=
  match s.index with
  | none => ({ s with cancels := s.cancels ++ [(none, false)], crashed := true }, false)
  | some index =>
    let s' := { s with
      index := none
      watcher := { s.watcher with state := .invalid }
      cancels := s.cancels ++ [(some index, decide (index ∈ s.watching))] }
    if index ∈ s.watching then
      ({ s' with watching := s.watching.erase index, slotConnected := false }, true)
    else (s', false)

/-- `m_signal.fire()` is reached when `invalidate` succeeds. -/
def fireImpl : WatcherSystem :=
  match s.invalidate with
  | (s, true) => { s with signals := s.signals + 1 }
  | (s, false) => s

/-- What `activate` and `fire` decide, done. -/
def settle (r : MojDbWatcher × Bool) : WatcherSystem :=
  if r.2 then s.fireImpl else { s with watcher := r.1 }

/-- It fails when there is no index. -/
def handleCancel : WatcherSystem :=
  match s.index with
  | none => s
  | some _ =>
    if s.watcher.state = .invalid then { s with cancelled := true }
    else
      match s.invalidate with
      | (s, ok) => { s with cancelled := s.cancelled || ok }

def abandon : WatcherSystem :=
  match s.watcher.state with
  | .invalid => { s with abandoned := s.abandoned || s.initialised }
  | _ => { s.fireImpl with abandoned := s.abandoned || s.initialised }

/-- The push of `addWatch`; `init` follows on the same thread. A watcher is added once. -/
def addWatch (index : Nat) : WatcherSystem :=
  if s.adding = none ∧ s.initialised = false then
    { s with adding := some index, watching := index :: s.watching }
  else s

def init (ranges : List MojDbKeyRange) (desc active : Bool) : WatcherSystem :=
  match s.adding with
  | none => s
  | some index => { s with
      index := some index
      adding := none
      initialised := true
      watcher := { s.watcher with ranges, desc, state := if active then .active else .pending } }

/-- The state is not looked at. -/
def shardStatusChanged (active : Bool) : WatcherSystem :=
  if s.shardCalls = 0 then s
  else
    let s := { s with shardCalls := s.shardCalls - 1 }
    if active then fireImpl { s with slotConnected := false } else s

inductive Action where
  | connect
  | addWatch (index : Nat)
  | init (ranges : List MojDbKeyRange) (desc active : Bool)
  | fire (key : MojDbKey)
  | activate (limitKey : MojDbKey)
  | handleCancel
  | abandon
  | shardCall
  | shardStatusChanged (active : Bool)
  deriving DecidableEq

def step (s : WatcherSystem) (a : Action) : WatcherSystem :=
  if s.crashed then s
  else
    match a with
    | .connect => { s with slotConnected := true }
    | .addWatch index => s.addWatch index
    | .init ranges desc active => s.init ranges desc active
    | .fire key => s.settle (s.watcher.fire key)
    | .activate limitKey => s.settle (s.watcher.activate limitKey)
    | .handleCancel => s.handleCancel
    | .abandon => s.abandon
    | .shardCall => if s.slotConnected then { s with shardCalls := s.shardCalls + 1 } else s
    | .shardStatusChanged active => s.shardStatusChanged active

/-! ## What holds in every state -/

/-- An active shard is handed to the watcher only while the watcher is waiting or active. -/
def ShardInTime (s : WatcherSystem) (a : Action) : Prop :=
  a = .shardStatusChanged true → s.shardCalls ≠ 0 → s.watcher.state ≠ .invalid

instance (s : WatcherSystem) (a : Action) : Decidable (s.ShardInTime a) :=
  inferInstanceAs (Decidable (_ → _ → _))

/-- The watcher is waiting or active. -/
structure Live (s : WatcherSystem) : Prop where
  valid : s.watcher.state ≠ .invalid
  registered : ∃ index, s.index = some index ∧ index ∈ s.watching
  initialised_eq : s.initialised = true
  adding_eq : s.adding = none
  signals_eq : s.signals = 0
  cancelled_eq : s.cancelled = false
  abandoned_eq : s.abandoned = false

/-- The watcher has not been handed to `init` yet. -/
structure Fresh (s : WatcherSystem) : Prop where
  invalid : s.watcher.state = .invalid
  index_eq : s.index = none
  initialised_eq : s.initialised = false
  adding_mem : ∀ index, s.adding = some index → index ∈ s.watching
  fireKey_eq : s.watcher.fireKey = []
  limitKey_eq : s.watcher.limitKey = []
  signals_eq : s.signals = 0
  cancelled_eq : s.cancelled = false
  abandoned_eq : s.abandoned = false

/-- The watcher has been fired, cancelled or abandoned. -/
structure Ended (s : WatcherSystem) : Prop where
  invalid : s.watcher.state = .invalid
  index_eq : s.index = none
  initialised_eq : s.initialised = true
  adding_eq : s.adding = none
  signals_le : s.signals ≤ 1
  told : s.signals = 1 ∨ s.cancelled = true

structure Inv (s : WatcherSystem) : Prop where
  running : s.crashed = false
  phase : s.Fresh ∨ s.Live ∨ s.Ended
  registered : ∀ c ∈ s.cancels, ∃ index, c = (some index, true)

variable {s}

theorem inv_start : start.Inv := by
  refine ⟨rfl, .inl ⟨rfl, rfl, rfl, ?_, rfl, rfl, rfl, rfl, rfl⟩, ?_⟩
  · intro index h
    cases h
  · intro c hc
    cases hc

/-- `invalidate` of a live watcher. -/
theorem Live.invalidate (h : s.Live) : ∃ index, index ∈ s.watching ∧ s.invalidate =
    ({ s with
      index := none
      watcher := { s.watcher with state := .invalid }
      cancels := s.cancels ++ [(some index, true)]
      watching := s.watching.erase index
      slotConnected := false }, true) := by
  obtain ⟨index, hindex, hmem⟩ := h.registered
  refine ⟨index, hmem, ?_⟩
  simp only [WatcherSystem.invalidate, hindex, if_pos hmem, decide_eq_true hmem]

theorem registered_append (h : ∀ c ∈ s.cancels, ∃ index, c = (some index, true)) (index : Nat) :
    ∀ c ∈ s.cancels ++ [(some index, true)], ∃ index, c = (some index, true) := by
  intro c hc
  cases List.mem_append.mp hc with
  | inl hc => exact h c hc
  | inr hc => exact ⟨index, List.mem_singleton.mp hc⟩

/-- A live watcher that fires has ended, with its one signal. -/
theorem Live.fireImpl (h : s.Live) (hinv : s.Inv) :
    s.fireImpl.Inv ∧ s.fireImpl.Ended ∧ s.fireImpl.signals = 1 := by
  obtain ⟨index, -, heq⟩ := h.invalidate
  have hsignals : s.fireImpl.signals = 1 := by
    simp only [WatcherSystem.fireImpl, heq, h.signals_eq]
  have hended : s.fireImpl.Ended := by
    refine ⟨?_, ?_, ?_, ?_, hsignals.le, .inl hsignals⟩
    · simp only [WatcherSystem.fireImpl, heq]
    · simp only [WatcherSystem.fireImpl, heq]
    · simp only [WatcherSystem.fireImpl, heq, h.initialised_eq]
    · simp only [WatcherSystem.fireImpl, heq, h.adding_eq]
  refine ⟨⟨?_, .inr (.inr hended), ?_⟩, hended, hsignals⟩
  · simp only [WatcherSystem.fireImpl, heq, hinv.running]
  · simp only [WatcherSystem.fireImpl, heq]
    exact registered_append hinv.registered index

/-- What the watcher decides about a key is nothing once it is invalid. -/
theorem fire_of_invalid {w : MojDbWatcher} (h : w.state = .invalid) (key : MojDbKey) :
    w.fire key = (w, false) := by
  rw [MojDbWatcher.fire, h]
  split_ifs
  · rfl
  · rfl

theorem activate_of_invalid {w : MojDbWatcher} (h : w.state = .invalid) (limitKey : MojDbKey) :
    w.activate limitKey = (w, false) := by
  rw [MojDbWatcher.activate, if_pos h]

theorem fire_state {w : MojDbWatcher} {key : MojDbKey} (h : (w.fire key).2 = false) :
    (w.fire key).1.state = w.state := by
  unfold MojDbWatcher.fire at h ⊢
  split_ifs at h ⊢ with hlimit
  · rfl
  · cases hs : w.state with
    | active => simp [hs, MojDbWatcher.fireImpl] at h
    | pending =>
      simp only
      split_ifs
      · rfl
      · exact hs
    | invalid => exact hs

theorem activate_state {w : MojDbWatcher} {limitKey : MojDbKey} (hw : w.state ≠ .invalid)
    (h : (w.activate limitKey).2 = false) : (w.activate limitKey).1.state = .active := by
  unfold MojDbWatcher.activate at h ⊢
  simp only [if_neg hw] at h ⊢
  split_ifs at h ⊢ with hfire
  · cases h
  · rfl

theorem Live.of_watcher (h : s.Live) {w : MojDbWatcher} (hw : w.state ≠ .invalid) :
    Live { s with watcher := w } :=
  ⟨hw, h.registered, h.initialised_eq, h.adding_eq, h.signals_eq, h.cancelled_eq, h.abandoned_eq⟩

/-- What is left of a live watcher: it has ended, or is live and `w`. -/
def Becomes (w : MojDbWatcher) (s' : WatcherSystem) : Prop := s'.Inv ∧ (s'.Ended ∨ s'.Live ∧ s'.watcher = w)

theorem Live.becomes_fireImpl (h : s.Live) (hinv : s.Inv) (w : MojDbWatcher) : Becomes w s.fireImpl := by
  obtain ⟨hfired, hended, -⟩ := h.fireImpl hinv
  exact ⟨hfired, .inl hended⟩

theorem Live.becomes (h : s.Live) (hinv : s.Inv) : Becomes s.watcher s := ⟨hinv, .inr ⟨h, rfl⟩⟩

theorem Live.becomes_settle (h : s.Live) (hinv : s.Inv) {r : MojDbWatcher × Bool}
    (hr : r.2 = false → r.1.state ≠ .invalid) : Becomes r.1 (s.settle r) := by
  unfold WatcherSystem.settle
  split_ifs with hfire
  · exact h.becomes_fireImpl hinv r.1
  · have hlive := h.of_watcher (hr (by simpa using hfire))
    exact ⟨⟨hinv.running, .inr (.inl hlive), hinv.registered⟩, .inr ⟨hlive, rfl⟩⟩

theorem settle_self (s : WatcherSystem) : s.settle (s.watcher, false) = s := rfl

/-- Nothing that is done with an invalid watcher changes it, but for `init`. -/
theorem settle_fire_of_invalid (h : s.watcher.state = .invalid) (key : MojDbKey) :
    s.settle (s.watcher.fire key) = s := by
  rw [fire_of_invalid h, settle_self]

theorem settle_activate_of_invalid (h : s.watcher.state = .invalid) (limitKey : MojDbKey) :
    s.settle (s.watcher.activate limitKey) = s := by
  rw [activate_of_invalid h, settle_self]

/-! ## One step -/

/-- A step that is allowed: shards come in time, and no key is empty, as none of an index is. -/
structure Allowed (s : WatcherSystem) (a : Action) : Prop where
  inTime : s.ShardInTime a
  keyed : ∀ key, a = .fire key → key ≠ []

theorem allowed_iff {a : Action} : s.Allowed a ↔ s.ShardInTime a ∧ a ≠ .fire [] := by
  constructor
  · intro h
    exact ⟨h.inTime, fun ha => h.keyed [] ha rfl⟩
  · intro h
    refine ⟨h.1, fun key ha hkey => h.2 ?_⟩
    rw [ha, hkey]

instance (s : WatcherSystem) (a : Action) : Decidable (s.Allowed a) := decidable_of_iff _ allowed_iff.symm

theorem step_of_running (h : s.Inv) (a : Action) : s.step a =
    match a with
    | .connect => { s with slotConnected := true }
    | .addWatch index => s.addWatch index
    | .init ranges desc active => s.init ranges desc active
    | .fire key => s.settle (s.watcher.fire key)
    | .activate limitKey => s.settle (s.watcher.activate limitKey)
    | .handleCancel => s.handleCancel
    | .abandon => s.abandon
    | .shardCall => if s.slotConnected then { s with shardCalls := s.shardCalls + 1 } else s
    | .shardStatusChanged active => s.shardStatusChanged active := by
  unfold step
  rw [h.running, if_neg Bool.false_ne_true]

/-- A shard that is not active, or comes when the signal has called nobody. -/
theorem shardStatusChanged_of_invalid {active : Bool} (h : s.watcher.state = .invalid)
    (ha : s.ShardInTime (.shardStatusChanged active)) :
    s.shardStatusChanged active = { s with shardCalls := s.shardCalls - 1 } := by
  unfold shardStatusChanged
  by_cases hcalls : s.shardCalls = 0
  · have hpred : s.shardCalls - 1 = s.shardCalls := by omega
    rw [if_pos hcalls, hpred]
  · cases active with
    | true => exact absurd h (ha rfl hcalls)
    | false => rw [if_neg hcalls, if_neg Bool.false_ne_true]

/-- Nothing has been done from `s` to `s'` that anybody else could notice. -/
structure Silent (s s' : WatcherSystem) : Prop where
  signals_eq : s'.signals = s.signals
  cancels_eq : s'.cancels = s.cancels
  crashed_eq : s'.crashed = s.crashed

/-- What has ended makes no further signal. -/
theorem Ended.step (h : s.Ended) (hinv : s.Inv) {a : Action} (ha : s.Allowed a) :
    (s.step a).Ended ∧ Silent s (s.step a) := by
  rw [step_of_running hinv]
  cases a with
  | connect => exact ⟨⟨h.invalid, h.index_eq, h.initialised_eq, h.adding_eq, h.signals_le, h.told⟩, ⟨rfl, rfl, rfl⟩⟩
  | addWatch index =>
    have hno : ¬ (s.adding = none ∧ s.initialised = false) := by simp [h.initialised_eq]
    simp only [addWatch, if_neg hno]
    exact ⟨h, ⟨rfl, rfl, rfl⟩⟩
  | init ranges desc active =>
    simp only [init, h.adding_eq]
    exact ⟨h, ⟨rfl, rfl, rfl⟩⟩
  | fire key =>
    simp only [settle_fire_of_invalid h.invalid]
    exact ⟨h, ⟨rfl, rfl, rfl⟩⟩
  | activate limitKey =>
    simp only [settle_activate_of_invalid h.invalid]
    exact ⟨h, ⟨rfl, rfl, rfl⟩⟩
  | handleCancel =>
    simp only [handleCancel, h.index_eq]
    exact ⟨h, ⟨rfl, rfl, rfl⟩⟩
  | abandon =>
    simp only [abandon, h.invalid]
    exact ⟨⟨h.invalid, h.index_eq, h.initialised_eq, h.adding_eq, h.signals_le, h.told⟩, ⟨rfl, rfl, rfl⟩⟩
  | shardCall =>
    simp only
    split_ifs
    · exact ⟨⟨h.invalid, h.index_eq, h.initialised_eq, h.adding_eq, h.signals_le, h.told⟩, ⟨rfl, rfl, rfl⟩⟩
    · exact ⟨h, ⟨rfl, rfl, rfl⟩⟩
  | shardStatusChanged active =>
    simp only [shardStatusChanged_of_invalid h.invalid ha.inTime]
    exact ⟨⟨h.invalid, h.index_eq, h.initialised_eq, h.adding_eq, h.signals_le, h.told⟩, ⟨rfl, rfl, rfl⟩⟩

theorem Fresh.step (h : s.Fresh) (hinv : s.Inv) {a : Action} (ha : s.Allowed a) : (s.step a).Inv := by
  rw [step_of_running hinv]
  cases a with
  | connect =>
    exact ⟨hinv.running, .inl ⟨h.invalid, h.index_eq, h.initialised_eq, h.adding_mem, h.fireKey_eq,
      h.limitKey_eq, h.signals_eq, h.cancelled_eq, h.abandoned_eq⟩, hinv.registered⟩
  | addWatch index =>
    simp only [addWatch]
    split_ifs
    · refine ⟨hinv.running, .inl ⟨h.invalid, h.index_eq, h.initialised_eq, ?_, h.fireKey_eq,
        h.limitKey_eq, h.signals_eq, h.cancelled_eq, h.abandoned_eq⟩, hinv.registered⟩
      intro index' hindex'
      cases hindex'
      exact List.mem_cons_self
    · exact hinv
  | init ranges desc active =>
    simp only [init]
    cases hadding : s.adding with
    | none => exact hinv
    | some index =>
      refine ⟨hinv.running, .inr (.inl ⟨?_, ⟨index, rfl, h.adding_mem index hadding⟩, rfl, rfl,
        h.signals_eq, h.cancelled_eq, h.abandoned_eq⟩), hinv.registered⟩
      cases active
      · exact MojDbWatcher.State.noConfusion
      · exact MojDbWatcher.State.noConfusion
  | fire key =>
    simp only [settle_fire_of_invalid h.invalid]
    exact hinv
  | activate limitKey =>
    simp only [settle_activate_of_invalid h.invalid]
    exact hinv
  | handleCancel =>
    simp only [handleCancel, h.index_eq]
    exact hinv
  | abandon =>
    simp only [abandon, h.invalid]
    refine ⟨hinv.running, .inl ⟨h.invalid, h.index_eq, h.initialised_eq, h.adding_mem, h.fireKey_eq,
      h.limitKey_eq, h.signals_eq, h.cancelled_eq, ?_⟩, hinv.registered⟩
    simp only [h.abandoned_eq, h.initialised_eq, Bool.or_self]
  | shardCall =>
    simp only
    split_ifs
    · exact ⟨hinv.running, .inl ⟨h.invalid, h.index_eq, h.initialised_eq, h.adding_mem, h.fireKey_eq,
        h.limitKey_eq, h.signals_eq, h.cancelled_eq, h.abandoned_eq⟩, hinv.registered⟩
    · exact hinv
  | shardStatusChanged active =>
    simp only [shardStatusChanged_of_invalid h.invalid ha.inTime]
    exact ⟨hinv.running, .inl ⟨h.invalid, h.index_eq, h.initialised_eq, h.adding_mem, h.fireKey_eq,
      h.limitKey_eq, h.signals_eq, h.cancelled_eq, h.abandoned_eq⟩, hinv.registered⟩

theorem Live.becomes_handleCancel (h : s.Live) (hinv : s.Inv) : Becomes s.watcher s.handleCancel := by
  obtain ⟨index, hindex, -⟩ := h.registered
  obtain ⟨index', -, heq⟩ := h.invalidate
  simp only [WatcherSystem.handleCancel, hindex, if_neg h.valid, heq]
  have hended : Ended { s with
      index := none
      watcher := { s.watcher with state := .invalid }
      watching := s.watching.erase index'
      slotConnected := false
      cancelled := s.cancelled || true
      cancels := s.cancels ++ [(some index', true)] } := by
    refine ⟨rfl, rfl, h.initialised_eq, h.adding_eq, ?_, .inr ?_⟩
    · simp only [h.signals_eq, Nat.zero_le]
    · simp only [Bool.or_true]
  exact ⟨⟨hinv.running, .inr (.inr hended), registered_append hinv.registered index'⟩, .inl hended⟩

theorem Live.becomes_abandon (h : s.Live) (hinv : s.Inv) : Becomes s.watcher s.abandon := by
  obtain ⟨hfired, hended, -⟩ := h.fireImpl hinv
  have habandon : s.abandon = { s.fireImpl with abandoned := s.abandoned || s.initialised } := by
    unfold WatcherSystem.abandon
    cases hstate : s.watcher.state with
    | invalid => exact absurd hstate h.valid
    | _ => rfl
  have hended' : Ended { s.fireImpl with abandoned := s.abandoned || s.initialised } :=
    ⟨hended.invalid, hended.index_eq, hended.initialised_eq, hended.adding_eq, hended.signals_le,
      hended.told⟩
  rw [habandon]
  exact ⟨⟨hfired.running, .inr (.inr hended'), hfired.registered⟩, .inl hended'⟩

theorem Live.with_slot (h : s.Live) (hinv : s.Inv) (slotConnected : Bool) (shardCalls : Nat) :
    Inv { s with slotConnected, shardCalls } ∧ Live { s with slotConnected, shardCalls } := by
  have hlive : Live { s with slotConnected, shardCalls } :=
    ⟨h.valid, h.registered, h.initialised_eq, h.adding_eq, h.signals_eq, h.cancelled_eq, h.abandoned_eq⟩
  exact ⟨⟨hinv.running, .inr (.inl hlive), hinv.registered⟩, hlive⟩

/-- What a live watcher makes of a step. -/
def decided (w : MojDbWatcher) : Action → MojDbWatcher
  | .fire key => (w.fire key).1
  | .activate limitKey => (w.activate limitKey).1
  | _ => w

theorem Live.step (h : s.Live) (hinv : s.Inv) (a : Action) : Becomes (decided s.watcher a) (s.step a) := by
  rw [step_of_running hinv]
  cases a with
  | connect =>
    obtain ⟨hinv', hlive'⟩ := h.with_slot hinv true s.shardCalls
    exact hlive'.becomes hinv'
  | addWatch index =>
    have hno : ¬ (s.adding = none ∧ s.initialised = false) := by simp [h.initialised_eq]
    simp only [addWatch, if_neg hno]
    exact h.becomes hinv
  | init ranges desc active =>
    simp only [init, h.adding_eq]
    exact h.becomes hinv
  | fire key =>
    refine h.becomes_settle hinv fun hr => ?_
    rw [fire_state hr]
    exact h.valid
  | activate limitKey =>
    refine h.becomes_settle hinv fun hr => ?_
    rw [activate_state h.valid hr]
    exact MojDbWatcher.State.noConfusion
  | handleCancel => exact h.becomes_handleCancel hinv
  | abandon => exact h.becomes_abandon hinv
  | shardCall =>
    simp only
    split_ifs
    · obtain ⟨hinv', hlive'⟩ := h.with_slot hinv s.slotConnected (s.shardCalls + 1)
      exact hlive'.becomes hinv'
    · exact h.becomes hinv
  | shardStatusChanged active =>
    simp only [shardStatusChanged]
    split_ifs
    · exact h.becomes hinv
    · obtain ⟨hinv', hlive'⟩ := h.with_slot hinv false (s.shardCalls - 1)
      exact hlive'.becomes_fireImpl hinv' s.watcher
    · obtain ⟨hinv', hlive'⟩ := h.with_slot hinv s.slotConnected (s.shardCalls - 1)
      exact hlive'.becomes hinv'

theorem inv_step (s : WatcherSystem) (a : Action) (h : s.Inv) (ha : s.Allowed a) : (s.step a).Inv := by
  rcases h.phase with hfresh | hlive | hended
  · exact hfresh.step h ha
  · exact (hlive.step h a).1
  · obtain ⟨hended', hsilent⟩ := hended.step h ha
    refine ⟨hsilent.crashed_eq.trans h.running, .inr (.inr hended'), ?_⟩
    rw [hsilent.cancels_eq]
    exact h.registered

/-! ## Keys that are not lost -/

/-- The watcher is done, or keeps a key that is at least as close as `key`. -/
structure Recorded (key : MojDbKey) (s : WatcherSystem) : Prop where
  initialised_eq : s.initialised = true
  kept : s.watcher.state = .invalid ∨ s.watcher.fireKey ≠ [] ∧
    (s.watcher.desc = false → s.watcher.fireKey ≤ key) ∧ (s.watcher.desc = true → key ≤ s.watcher.fireKey)

/-- What `activate` and `fire` do to the key that is kept. -/
theorem fire_kept {w : MojDbWatcher} {key key' : MojDbKey} (hkey' : key' ≠ [])
    (h : w.fireKey ≠ [] ∧ (w.desc = false → w.fireKey ≤ key) ∧ (w.desc = true → key ≤ w.fireKey)) :
    (w.fire key').1.fireKey ≠ [] ∧ ((w.fire key').1.desc = false → (w.fire key').1.fireKey ≤ key) ∧
      ((w.fire key').1.desc = true → key ≤ (w.fire key').1.fireKey) := by
  obtain ⟨hne, hasc, hdesc⟩ := h
  unfold MojDbWatcher.fire
  split_ifs
  · exact ⟨hne, hasc, hdesc⟩
  · cases w.state with
    | active => exact ⟨hne, hasc, hdesc⟩
    | invalid => exact ⟨hne, hasc, hdesc⟩
    | pending =>
      simp only
      split_ifs with hsave
      · refine ⟨hkey', ?_, ?_⟩
        · intro hd
          rcases hsave with ⟨hd', -⟩ | ⟨-, hnil | hlt⟩
          · exact absurd (hd.symm.trans hd') Bool.false_ne_true
          · exact absurd hnil hne
          · exact hlt.le.trans (hasc hd)
        · intro hd
          rcases hsave with ⟨-, hlt⟩ | ⟨hd', -⟩
          · exact (hdesc hd).trans hlt.le
          · exact absurd (hd'.symm.trans hd) Bool.false_ne_true
      · exact ⟨hne, hasc, hdesc⟩

theorem activate_kept (w : MojDbWatcher) (limitKey : MojDbKey) :
    (w.activate limitKey).1.fireKey = w.fireKey ∧ (w.activate limitKey).1.desc = w.desc := by
  unfold MojDbWatcher.activate
  split_ifs
  · exact ⟨rfl, rfl⟩
  · simp only
    split_ifs
    · exact ⟨rfl, rfl⟩
    · exact ⟨rfl, rfl⟩

theorem Recorded.step {key : MojDbKey} (h : s.Recorded key) (hinv : s.Inv) {a : Action}
    (ha : s.Allowed a) : (s.step a).Recorded key := by
  rcases hinv.phase with hfresh | hlive | hended
  · exact absurd (hfresh.initialised_eq.symm.trans h.initialised_eq) Bool.false_ne_true
  · obtain ⟨-, hended | ⟨hlive', hwatcher⟩⟩ := hlive.step hinv a
    · exact ⟨hended.initialised_eq, .inl hended.invalid⟩
    · have hkept := h.kept.resolve_left hlive.valid
      refine ⟨hlive'.initialised_eq, .inr ?_⟩
      rw [hwatcher]
      cases a with
      | fire key' => exact fire_kept (ha.keyed key' rfl) hkept
      | activate limitKey =>
        simp only [decided]
        rw [(activate_kept s.watcher limitKey).1, (activate_kept s.watcher limitKey).2]
        exact hkept
      | _ => exact hkept
  · obtain ⟨hended', -⟩ := hended.step hinv ha
    exact ⟨hended'.initialised_eq, .inl hended'.invalid⟩

/-- Initialised and not activated yet, or done. -/
structure Unlimited (s : WatcherSystem) : Prop where
  initialised_eq : s.initialised = true
  limitKey_eq : s.watcher.state = .invalid ∨ s.watcher.limitKey = []

theorem fire_limitKey (w : MojDbWatcher) (key : MojDbKey) : (w.fire key).1.limitKey = w.limitKey := by
  unfold MojDbWatcher.fire
  split_ifs
  · rfl
  · cases w.state with
    | active => rfl
    | invalid => rfl
    | pending =>
      simp only
      split_ifs
      · rfl
      · rfl

theorem Unlimited.step (h : s.Unlimited) (hinv : s.Inv) {a : Action} (ha : s.Allowed a)
    (hactivate : ∀ limitKey, a ≠ .activate limitKey) : (s.step a).Unlimited := by
  rcases hinv.phase with hfresh | hlive | hended
  · exact absurd (hfresh.initialised_eq.symm.trans h.initialised_eq) Bool.false_ne_true
  · obtain ⟨-, hended | ⟨hlive', hwatcher⟩⟩ := hlive.step hinv a
    · exact ⟨hended.initialised_eq, .inl hended.invalid⟩
    · have hlimit := h.limitKey_eq.resolve_left hlive.valid
      refine ⟨hlive'.initialised_eq, .inr ?_⟩
      rw [hwatcher]
      cases a with
      | fire key => exact (fire_limitKey s.watcher key).trans hlimit
      | activate limitKey => exact absurd rfl (hactivate limitKey)
      | _ => exact hlimit
  · obtain ⟨hended', -⟩ := hended.step hinv ha
    exact ⟨hended'.initialised_eq, .inl hended'.invalid⟩

/-- `init` of the watcher that is being added. -/
theorem unlimited_init (hinv : s.Inv) (hadding : s.adding.isSome) (ranges : List MojDbKeyRange)
    (desc active : Bool) : (s.step (.init ranges desc active)).Unlimited := by
  obtain ⟨index, hindex⟩ := Option.isSome_iff_exists.mp hadding
  have hlimit : s.watcher.limitKey = [] := by
    rcases hinv.phase with hfresh | hlive | hended
    · exact hfresh.limitKey_eq
    · cases hlive.adding_eq.symm.trans hindex
    · cases hended.adding_eq.symm.trans hindex
  rw [step_of_running hinv]
  simp only [init, hindex]
  exact ⟨rfl, .inr hlimit⟩

/-- A key that comes before the activation is kept, or fires at once. -/
theorem Unlimited.recorded_fire (h : s.Unlimited) (hinv : s.Inv) {key : MojDbKey} (hkey : key ≠ []) :
    (s.step (.fire key)).Recorded key := by
  have hallowed : s.Allowed (.fire key) :=
    ⟨fun ha => Action.noConfusion ha, fun key' ha => by cases ha; exact hkey⟩
  rcases hinv.phase with hfresh | hlive | hended
  · exact absurd (hfresh.initialised_eq.symm.trans h.initialised_eq) Bool.false_ne_true
  · obtain ⟨-, hended | ⟨hlive', hwatcher⟩⟩ := hlive.step hinv (.fire key)
    · exact ⟨hended.initialised_eq, .inl hended.invalid⟩
    · refine ⟨hlive'.initialised_eq, .inr ?_⟩
      have hlimit : s.watcher.inLimit s.watcher.limitKey key = true := by
        rw [h.limitKey_eq.resolve_left hlive.valid]
        simp [MojDbWatcher.inLimit]
      have hvalid := hlive'.valid
      rw [hwatcher] at hvalid ⊢
      simp only [decided, MojDbWatcher.fire, hlimit] at hvalid ⊢
      cases hstate : s.watcher.state with
      | invalid => exact absurd hstate hlive.valid
      | active => simp [hstate, MojDbWatcher.fireImpl] at hvalid
      | pending =>
        simp only [Bool.not_true, Bool.false_eq_true, if_false]
        split_ifs with hsave
        · exact ⟨hkey, fun _ => le_rfl, fun _ => le_rfl⟩
        · rw [not_or, not_and, not_and, not_or] at hsave
          refine ⟨?_, fun hd => not_lt.mp (hsave.2 hd).2, fun hd => not_lt.mp (hsave.1 hd)⟩
          cases hd : s.watcher.desc with
          | false => exact (hsave.2 hd).1
          | true =>
            intro hnil
            have hle := not_lt.mp (hsave.1 hd)
            rw [hnil] at hle
            exact hkey (le_antisymm hle (nil_le key))
  · obtain ⟨hended', -⟩ := hended.step hinv hallowed
    exact ⟨hended'.initialised_eq, .inl hended'.invalid⟩

/-- The activation looks at the key that was kept. -/
theorem Recorded.activate {key limitKey : MojDbKey} (h : s.Recorded key) (hinv : s.Inv)
    (hlimit : s.watcher.inLimit limitKey key = true) :
    (s.step (.activate limitKey)).signals = 1 ∨ (s.step (.activate limitKey)).cancelled = true := by
  have hallowed : s.Allowed (.activate limitKey) :=
    ⟨fun ha => Action.noConfusion ha, fun _ ha => Action.noConfusion ha⟩
  rcases hinv.phase with hfresh | hlive | hended
  · exact absurd (hfresh.initialised_eq.symm.trans h.initialised_eq) Bool.false_ne_true
  · left
    obtain ⟨hne, hasc, hdesc⟩ := h.kept.resolve_left hlive.valid
    have hkept : s.watcher.inLimit limitKey s.watcher.fireKey = true := by
      simp only [MojDbWatcher.inLimit, decide_eq_true_eq] at hlimit ⊢
      rcases hlimit with hnil | ⟨hd, hle⟩ | ⟨hd, hle⟩
      · exact .inl hnil
      · exact .inr (.inl ⟨hd, hle.trans (hdesc hd)⟩)
      · exact .inr (.inr ⟨hd, (hasc hd).trans hle⟩)
    have hfires : (s.watcher.activate limitKey).2 = true := by
      rw [MojDbWatcher.activate, if_neg hlive.valid]
      simp only
      rw [if_pos ⟨hne, hkept⟩]
      rfl
    rw [step_of_running hinv]
    simp only [settle, hfires, if_true]
    exact (hlive.fireImpl hinv).2.2
  · exact (hended.step hinv hallowed).1.told

/-! ## Runs -/

theorem inv_run {as : List Action} (hs : s.Inv) (h : Along step Allowed s as) : (run step s as).Inv :=
  Along.invariant Inv inv_step hs h

theorem Ended.run (h : s.Ended) (hinv : s.Inv) {as : List Action} (has : Along WatcherSystem.step Allowed s as) :
    (run WatcherSystem.step s as).signals = s.signals := by
  induction as generalizing s with
  | nil => rfl
  | cons a as ih =>
    obtain ⟨hended, hsilent⟩ := h.step hinv has.1
    exact (ih hended (inv_step s a hinv has.1) has.2).trans hsilent.signals_eq

theorem ended_of_cancelled_or_abandoned (hinv : s.Inv) (h : s.cancelled = true ∨ s.abandoned = true) :
    s.Ended := by
  rcases hinv.phase with hfresh | hlive | hended
  · rw [hfresh.cancelled_eq, hfresh.abandoned_eq, or_self] at h
    exact absurd h Bool.false_ne_true
  · rw [hlive.cancelled_eq, hlive.abandoned_eq, or_self] at h
    exact absurd h Bool.false_ne_true
  · exact hended

theorem Inv.signals_le (hinv : s.Inv) : s.signals ≤ 1 := by
  rcases hinv.phase with hfresh | hlive | hended
  · rw [hfresh.signals_eq]
    exact Nat.zero_le 1
  · rw [hlive.signals_eq]
    exact Nat.zero_le 1
  · exact hended.signals_le

theorem Recorded.run {key : MojDbKey} (h : s.Recorded key) (hinv : s.Inv) {as : List Action}
    (has : Along WatcherSystem.step Allowed s as) : (run WatcherSystem.step s as).Recorded key := by
  induction as generalizing s with
  | nil => exact h
  | cons a as ih => exact ih (h.step hinv has.1) (inv_step s a hinv has.1) has.2

theorem Unlimited.run (h : s.Unlimited) (hinv : s.Inv) {as : List Action}
    (has : Along WatcherSystem.step Allowed s as) (hactivate : ∀ limitKey, Action.activate limitKey ∉ as) :
    (run WatcherSystem.step s as).Unlimited := by
  induction as generalizing s with
  | nil => exact h
  | cons a as ih =>
    have ha : ∀ limitKey, a ≠ .activate limitKey := by
      intro limitKey he
      exact hactivate limitKey (he ▸ List.mem_cons_self)
    exact ih (h.step hinv has.1 ha) (inv_step s a hinv has.1) has.2
      fun limitKey hmem => hactivate limitKey (List.mem_cons_of_mem a hmem)

/-- A key that fires between `init` and the first activation has been signalled when the watcher has
been activated with a limit the key is within, unless the client has cancelled. -/
theorem delivered_of_run {pre mid post : List Action} {ranges : List MojDbKeyRange} {desc active : Bool}
    {key limitKey : MojDbKey}
    (h : Along step Allowed start (pre ++ (.init ranges desc active :: (mid ++ (.fire key :: post))) ++
      [.activate limitKey]))
    (hadding : (run step start pre).adding.isSome) (hmid : ∀ limitKey, Action.activate limitKey ∉ mid)
    (hlimit : (run step start (pre ++ (.init ranges desc active :: (mid ++ (.fire key :: post))))).watcher.inLimit
      limitKey key = true) :
    let s := run step start (pre ++ (.init ranges desc active :: (mid ++ (.fire key :: post))) ++
      [.activate limitKey])
    s.signals = 1 ∨ s.cancelled = true := by
  have hfront := h.of_append
  have hpre := inv_run inv_start hfront.of_append
  obtain ⟨hinit, hrest⟩ := hfront.rest
  have hunlimited := unlimited_init hpre hadding ranges desc active
  have hinv₁ := inv_step _ _ hpre hinit
  have hunlimited₂ := hunlimited.run hinv₁ hrest.of_append hmid
  have hinv₂ := inv_run hinv₁ hrest.of_append
  obtain ⟨hfire, hpost⟩ := hrest.rest
  have hrecorded := hunlimited₂.recorded_fire hinv₂ (hfire.keyed key rfl)
  have hinv₃ := inv_step _ _ hinv₂ hfire
  have hrecorded' := hrecorded.run hinv₃ hpost
  have hinv₄ := inv_run hinv₃ hpost
  have hrun : run step start (pre ++ (.init ranges desc active :: (mid ++ (.fire key :: post)))) =
      run step (step (run step (step (run step start pre) (.init ranges desc active)) mid) (.fire key)) post := by
    rw [run_append, run_cons, run_append, run_cons]
  intro s
  have hs : s = step (run step start (pre ++ (.init ranges desc active :: (mid ++ (.fire key :: post)))))
      (.activate limitKey) := run_append _ _ _
  rw [hrun] at hlimit hs
  rw [hs]
  exact hrecorded'.activate hinv₄ hlimit

/-- **What a client hears of a watcher**, in every run in which shards come in time: one signal at
most, and none behind the end; an index that is told to drop the watcher has it; and no key that fires
before the activation is lost when it is within the limit. -/
theorem signals_of_run (as : List Action) (h : Along step Allowed start as) :
    (run step start as).signals ≤ 1 ∧
    (∀ bs cs, as = bs ++ cs → (run step start bs).cancelled = true ∨ (run step start bs).abandoned = true →
      (run step start as).signals = (run step start bs).signals) ∧
    (∀ c ∈ (run step start as).cancels, ∃ index, c = (some index, true)) ∧
    (∀ pre ranges desc active mid key post limitKey,
      as = pre ++ (.init ranges desc active :: (mid ++ (.fire key :: post))) ++ [.activate limitKey] →
      (run step start pre).adding.isSome → (∀ limitKey, Action.activate limitKey ∉ mid) →
      (run step start (pre ++ (.init ranges desc active :: (mid ++ (.fire key :: post))))).watcher.inLimit
        limitKey key = true →
      (run step start as).signals = 1 ∨ (run step start as).cancelled = true) := by
  refine ⟨(inv_run inv_start h).signals_le, ?_, (inv_run inv_start h).registered, ?_⟩
  · intro bs cs has hend
    subst has
    have hinv := inv_run inv_start h.of_append
    rw [run_append]
    exact (ended_of_cancelled_or_abandoned hinv hend).run hinv h.rest
  · intro pre ranges desc active mid key post limitKey has hadding hmid hlimit
    subst has
    exact delivered_of_run h hadding hmid hlimit

/-- Two keys fire before the cursor stops at the first of them; a shard comes later, and the client
cancels what is already over. -/
def firedEarly : List Action :=
  [.connect, .addWatch 0, .init [] false false, .shardCall, .fire [2], .fire [3], .activate [2],
    .shardStatusChanged false, .handleCancel]

theorem signals_of_run_firedEarly :
    (run step start firedEarly).signals ≤ 1 ∧ (run step start (firedEarly.take 7)).signals = 1 := by
  refine ⟨(signals_of_run firedEarly (by decide)).1, ?_⟩
  exact ((signals_of_run (firedEarly.take 7) (by decide)).2.2.2 [.connect, .addWatch 0] [] false false
    [.shardCall] [2] [.fire [3]] [2] rfl rfl (by simp) (by decide)).resolve_right (by decide)

/-- A shard that comes between `connect` and `init` reaches a null pointer; a key beyond the limit is
not signalled; and what was abandoned before `init` is signalled afterwards. -/
theorem signals_of_any_run :
    (none, false) ∈ (run step start [.connect, .shardCall, .shardStatusChanged true]).cancels ∧
    (run step start [.addWatch 0, .init [] false false, .fire [2], .activate [1]]).signals = 0 ∧
    (run step start [.addWatch 0, .init [] false false, .fire [2], .activate [1]]).cancelled = false ∧
    (run step start [.addWatch 0, .abandon, .init [] false true, .fire [2]]).signals = 1 := by
  decide

end WatcherSystem

end Db8
