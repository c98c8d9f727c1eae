import Db8.Db.MojDbWatcher
import Db8.Lib.Run

/-!
# Db.MojDbIndexWatch

The watchers of an index and the keys transactions have changed on it: `addPendingKeys`, `committed`
and `destroy`, over runs in which transactions and watchers interleave in any order.

* `committed_notifies`   — a commit fires the watchers its changes concern.
* `notified_of_run`      — so does every commit of a run, and only committed changes fire, as long as
  no commit meets the pending keys of another transaction in a watched range, nor a descending
  watcher with changes on both sides of its limit in one range.
-/

namespace Db8

open Lib

/-- What an index keeps for its watchers: the registered ones, and the changed keys by transaction. -/
structure IndexWatch where
  watcherVec : List (Nat × MojDbWatcher)
  pendingKeys : SortedMap Nat KeySet

namespace IndexWatch

def empty : IndexWatch := ⟨[], .empty⟩

variable (s : IndexWatch)

def addPendingKeys (txn : Nat) (keys : KeySet) : IndexWatch :=
  { s with
    pendingKeys :=
      match s.pendingKeys.find txn with
      | none => s.pendingKeys.insert txn keys
      | some old => s.pendingKeys.insert txn (old.putAll keys.elems) }

def destroy (txn : Nat) : IndexWatch := { s with pendingKeys := s.pendingKeys.erase txn }

/-- A watcher under the trigger a commit found for it; with the key when the watcher signals. -/
def shoot (pendingKeys : SortedMap Nat KeySet) (w : MojDbWatcher) : MojDbWatcher × Option MojDbKey :=
  match w.trigger pendingKeys with
  | none => (w, none)
  | some key => ((w.fire key).1, if (w.fire key).2 then some key else none)

/-- `cancelWatch` takes a watcher that became invalid off the index. -/
def registered (watchers : List (Nat × MojDbWatcher)) : List (Nat × MojDbWatcher) :=
  watchers.filter fun p => p.2.state ≠ .invalid

/-- Every registered watcher gets at most one trigger, so that firing the triggers in order fires each
watcher at its own. -/
def committed : IndexWatch × List (Nat × MojDbKey) :=
  ({ s with watcherVec := registered (s.watcherVec.map fun p => (p.1, (shoot s.pendingKeys p.2).1)) },
    s.watcherVec.filterMap fun p => (shoot s.pendingKeys p.2).2.map (p.1, ·))

/-- `addWatch`, with the plan of the query. -/
def addWatch (index : MojDbIndex) (id : Nat) (query : MojDbQuery) : IndexWatch :=
  if !index.canAnswer query || s.watcherVec.any (·.1 = id) then s
  else
    match MojDbQueryPlan.init index query with
    | .error _ => s
    | .ok ranges => { s with watcherVec := s.watcherVec ++ [(id, MojDbWatcher.init ranges query.desc)] }

/-- `activate` on the watcher `id`; the signal carries the key that fired before. -/
def activate (id : Nat) (limitKey : MojDbKey) : IndexWatch × List (Nat × MojDbKey) :=
  ({ s with
      watcherVec :=
        registered (s.watcherVec.map fun p => if p.1 = id then (p.1, (p.2.activate limitKey).1) else p) },
    s.watcherVec.filterMap fun p =>
      if p.1 = id ∧ (p.2.activate limitKey).2 = true then some (p.1, p.2.fireKey) else none)

def cancel (id : Nat) : IndexWatch := { s with watcherVec := s.watcherVec.filter (·.1 ≠ id) }

end IndexWatch

/-! ## Runs -/

/-- The index, and the keys that committed transactions have changed. -/
structure WatchRun where
  index : IndexWatch
  committedKeys : List MojDbKey

inductive WatchOp where
  | addPendingKeys (txn : Nat) (keys : KeySet)
  | commit (txn : Nat)
  | destroy (txn : Nat)
  | addWatch (id : Nat) (query : MojDbQuery)
  | activate (id : Nat) (limitKey : MojDbKey)
  | cancel (id : Nat)

namespace WatchRun

open MojDbWatcher (keysOf OthersClear OneSided)

def empty : WatchRun := ⟨.empty, []⟩

variable (index : MojDbIndex)

/-- One step, and the watchers it signals, each with the key that made it fire. -/
def stepSignals (s : WatchRun) : WatchOp → WatchRun × List (Nat × MojDbKey)
  | .addPendingKeys txn keys => ({ s with index := s.index.addPendingKeys txn keys }, [])
  | .commit txn =>
    ({ index := s.index.committed.1
       committedKeys := s.committedKeys ++ (keysOf s.index.pendingKeys txn).elems },
      s.index.committed.2)
  | .destroy txn => ({ s with index := s.index.destroy txn }, [])
  | .addWatch id query => ({ s with index := s.index.addWatch index id query }, [])
  | .activate id limitKey => ({ s with index := (s.index.activate id limitKey).1 }, (s.index.activate id limitKey).2)
  | .cancel id => ({ s with index := s.index.cancel id }, [])

def step (s : WatchRun) (op : WatchOp) : WatchRun := (s.stepSignals index op).1

def signals (s : WatchRun) (op : WatchOp) : List (Nat × MojDbKey) := (s.stepSignals index op).2

/-- At a commit no other transaction has keys pending in a watched range, and no descending watcher
has changes on both sides of its limit in one range. -/
def CommitClear (s : WatchRun) : WatchOp → Prop
  | .commit txn => ∀ p ∈ s.index.watcherVec,
      OthersClear s.index.pendingKeys txn p.2 ∧ OneSided s.index.pendingKeys txn p.2
  | _ => True

/-- A registered watcher is valid, has ordered ranges, and has been fired only for committed keys. -/
structure WatcherOk (committedKeys : List MojDbKey) (w : MojDbWatcher) : Prop where
  ordered : w.Ordered
  valid : w.state ≠ .invalid
  fireKey : w.fireKey = [] ∨ w.fireKey ∈ committedKeys

def Ok (s : WatchRun) : Prop := ∀ p ∈ s.index.watcherVec, WatcherOk s.committedKeys p.2

theorem WatcherOk.mono {ks ks' : List MojDbKey} (hsub : ks ⊆ ks') {w : MojDbWatcher}
    (h : WatcherOk ks w) : WatcherOk ks' w :=
  ⟨h.ordered, h.valid, h.fireKey.imp id fun hk => hsub hk⟩

theorem ordered_congr {w w' : MojDbWatcher} (hr : w'.ranges = w.ranges) (hd : w'.desc = w.desc)
    (h : w.Ordered) : w'.Ordered :=
  ⟨fun hdesc => hr ▸ h.asc (hd ▸ hdesc), fun hdesc => hr ▸ h.desc (hd ▸ hdesc), hr ▸ h.bounded⟩

/-- What `fire` does to a watcher: it becomes invalid and signals, or keeps the key, or nothing. -/
theorem fire_cases (w : MojDbWatcher) (key : MojDbKey) :
    ((w.fire key).2 = true ∧ w.inLimit w.limitKey key = true ∧ w.state = .active ∧
        (w.fire key).1.state = .invalid) ∨
      (w.fire key).2 = false ∧ ((w.fire key).1 = w ∨ (w.fire key).1 = { w with fireKey := key }) := by
  unfold MojDbWatcher.fire
  cases hlimit : w.inLimit w.limitKey key with
  | false => simp
  | true =>
    cases hstate : w.state with
    | invalid => simp
    | active => simp [MojDbWatcher.fireImpl]
    | pending =>
      simp only [Bool.not_true, Bool.false_eq_true, if_false]
      split_ifs <;> simp

theorem fire_active {w : MojDbWatcher} {key : MojDbKey} (hactive : w.state = .active)
    (hlimit : w.inLimit w.limitKey key = true) : (w.fire key).2 = true := by
  simp [MojDbWatcher.fire, hlimit, hactive, MojDbWatcher.fireImpl]

/-- What `activate` does to a valid watcher: it signals the key that fired before, or waits on. -/
theorem activate_cases (w : MojDbWatcher) (limitKey : MojDbKey) :
    ((w.activate limitKey).2 = true ∧ w.fireKey ≠ [] ∧ (w.activate limitKey).1.state = .invalid) ∨
      (w.activate limitKey).2 = false ∧
        ((w.activate limitKey).1 = w ∨
          (w.activate limitKey).1 = { w with state := .active, limitKey }) := by
  unfold MojDbWatcher.activate
  by_cases hinvalid : w.state = .invalid
  · simp [hinvalid]
  · rw [if_neg hinvalid]
    dsimp only
    split_ifs with hfired
    · exact .inl ⟨rfl, hfired.1, rfl⟩
    · exact .inr ⟨rfl, .inr rfl⟩

/-! ## One commit -/

section Commit

variable {pendingKeys : SortedMap Nat KeySet} {txn : Nat} {w : MojDbWatcher} {ks : List MojDbKey}

/-- A shot that signals is for a key the transaction has changed. -/
theorem shoot_signal (hothers : OthersClear pendingKeys txn w) {key : MojDbKey}
    (h : (IndexWatch.shoot pendingKeys w).2 = some key) : key ∈ keysOf pendingKeys txn := by
  unfold IndexWatch.shoot at h
  split at h
  · cases h
  · rename_i first htrigger
    dsimp only at h
    split_ifs at h
    cases h
    exact (MojDbWatcher.trigger_eq_some hothers htrigger).1

theorem shoot_ok (hothers : OthersClear pendingKeys txn w) (h : WatcherOk ks w)
    (hvalid : (IndexWatch.shoot pendingKeys w).1.state ≠ .invalid) :
    WatcherOk (ks ++ (keysOf pendingKeys txn).elems) (IndexWatch.shoot pendingKeys w).1 := by
  have hmono := h.mono (List.subset_append_left ks (keysOf pendingKeys txn).elems)
  unfold IndexWatch.shoot at hvalid ⊢
  split
  · exact hmono
  · rename_i first htrigger
    have hfirst := (MojDbWatcher.trigger_eq_some hothers htrigger).1
    simp only [htrigger] at hvalid
    rcases fire_cases w first with ⟨-, -, -, hinvalid⟩ | ⟨-, hsame | hsave⟩
    · exact absurd hinvalid hvalid
    · rwa [hsame]
    · rw [hsave]
      exact ⟨ordered_congr (w := w) rfl rfl hmono.ordered, hmono.valid, .inr (List.mem_append_right ks hfirst)⟩

/-- **A commit notifies**: an active watcher with a changed key in its ranges and within its limit is
shot and signals. -/
theorem shoot_notifies (h : WatcherOk ks w) (hothers : OthersClear pendingKeys txn w)
    (hside : OneSided pendingKeys txn w) (hactive : w.state = .active) {key : MojDbKey}
    (hkey : key ∈ keysOf pendingKeys txn) (hin : w.InRanges key)
    (hlimit : w.inLimit w.limitKey key = true) :
    ∃ first, (IndexWatch.shoot pendingKeys w).2 = some first := by
  obtain ⟨first, htrigger, -, hfirst⟩ :=
    MojDbWatcher.trigger_inLimit h.ordered hothers hside hkey hin hlimit
  exact ⟨first, by simp [IndexWatch.shoot, htrigger, fire_active hactive hfirst]⟩

end Commit

/-! ## Every step -/

variable {index : MojDbIndex}

theorem mem_registered {watchers : List (Nat × MojDbWatcher)} {p : Nat × MojDbWatcher}
    (h : p ∈ IndexWatch.registered watchers) : p ∈ watchers ∧ p.2.state ≠ .invalid := by
  simpa [IndexWatch.registered] using h

theorem step_ok {s : WatchRun} (hs : s.Ok) {op : WatchOp} (hop : s.CommitClear op) :
    (s.step index op).Ok := by
  intro p hp
  cases op with
  | addPendingKeys txn keys => exact hs p hp
  | destroy txn => exact hs p hp
  | cancel id => exact hs p (List.mem_of_mem_filter hp)
  | commit txn =>
    obtain ⟨hmem, hvalid⟩ := mem_registered hp
    obtain ⟨q, hq, rfl⟩ := List.mem_map.mp hmem
    exact shoot_ok (hop q hq).1 (hs q hq) hvalid
  | addWatch id query =>
    have hp' : p ∈ (s.index.addWatch index id query).watcherVec := hp
    unfold IndexWatch.addWatch at hp'
    split_ifs at hp' with hskip
    · exact hs p hp'
    · split at hp'
      · exact hs p hp'
      · rename_i ranges hplan
        rcases List.mem_append.mp hp' with hp' | hp'
        · exact hs p hp'
        · obtain rfl := List.mem_singleton.mp hp'
          have hanswer : index.canAnswer query = true := by
            by_contra hne
            simp [hne] at hskip
          exact ⟨MojDbWatcher.ordered_of_plan hanswer hplan, by simp [MojDbWatcher.init], .inl rfl⟩
  | activate id limitKey =>
    obtain ⟨hmem, hvalid⟩ := mem_registered hp
    obtain ⟨q, hq, rfl⟩ := List.mem_map.mp hmem
    have hqok := hs q hq
    split_ifs at hvalid ⊢
    · rcases activate_cases q.2 limitKey with ⟨-, -, hinvalid⟩ | ⟨-, hsame | hactive⟩
      · exact absurd hinvalid hvalid
      · rw [hsame]
        exact hqok
      · simp only [hactive]
        exact ⟨ordered_congr (w := q.2) rfl rfl hqok.ordered, by simp, hqok.fireKey⟩
    · exact hqok

/-- Whatever signals, signals for a key a committed transaction has changed. -/
theorem signals_committed {s : WatchRun} (hs : s.Ok) {op : WatchOp} (hop : s.CommitClear op) {id : Nat}
    {key : MojDbKey} (h : (id, key) ∈ s.signals index op) : key ∈ (s.step index op).committedKeys := by
  cases op with
  | commit txn =>
    obtain ⟨p, hp, hsome⟩ := List.mem_filterMap.mp h
    obtain ⟨k, hk, heq⟩ := Option.map_eq_some_iff.mp hsome
    cases heq
    exact List.mem_append_right _ (shoot_signal (hop p hp).1 hk)
  | activate id' limitKey =>
    obtain ⟨p, hp, hsome⟩ := List.mem_filterMap.mp h
    split_ifs at hsome with hfired
    cases hsome
    rcases activate_cases p.2 limitKey with ⟨-, hne, -⟩ | ⟨hfalse, -⟩
    · exact (hs p hp).fireKey.resolve_left hne
    · rw [hfalse] at hfired
      cases hfired.2
  | _ => cases h

/-- **Every commit of a run notifies, and only of committed changes.** -/
theorem notified_of_run (index : MojDbIndex) (ops : List WatchOp)
    (hops : Along (step index) CommitClear empty ops) (done : List WatchOp) (op : WatchOp)
    (hdone : done ++ [op] <+: ops) :
    let s := run (step index) empty done
    (∀ txn, op = .commit txn → ∀ id w, (id, w) ∈ s.index.watcherVec → w.state = .active →
      (∃ key ∈ keysOf s.index.pendingKeys txn, w.InRanges key ∧ w.inLimit w.limitKey key = true) →
      ∃ key, (id, key) ∈ s.signals index op) ∧
    ∀ id key, (id, key) ∈ s.signals index op → key ∈ (s.step index op).committedKeys := by
  intro s
  have halong := hops.of_isPrefix hdone
  have hs : s.Ok := Along.invariant Ok (fun _ _ hs hop => step_ok hs hop) (by simp [Ok, empty, IndexWatch.empty])
    halong.of_append
  have hop : s.CommitClear op := (Along.last halong)
  refine ⟨?_, fun id key h => signals_committed hs hop h⟩
  rintro txn rfl id w hw hactive ⟨key, hkey, hin, hlimit⟩
  obtain ⟨first, hfirst⟩ := shoot_notifies (hs _ hw) (hop _ hw).1 (hop _ hw).2 hactive hkey hin hlimit
  exact ⟨first, List.mem_filterMap.mpr ⟨(id, w), hw, by simp [hfirst]⟩⟩

/-! ### A watcher of one query -/

open MojDbQueryPlan (foo fooIndex fooPrefixQuery)

/-- `foo % "a"`, descending or not. -/
def prefixQuery (desc : Bool) : MojDbQuery :=
  { fooPrefixQuery (.string ⟨[97], by decide⟩) rfl with desc }

/-- The key of an object with a string `foo` of one byte behind `a`. -/
def fooKey (c : MojByte) : MojDbKey :=
  fooIndex.idKey ++ (MojObjectWriter.MarkerStringValue :: [97, c, 0]) ++ (MojObject.int 1).toBytes

/-- A watcher of the query, active with a limit. -/
def watching (desc : Bool) (limitKey : MojDbKey) : List WatchOp :=
  [.addWatch 0 (prefixQuery desc), .activate 0 limitKey]

theorem notified_of_one_put :
    ∃ key, (0, key) ∈ (run (step fooIndex) empty
      (watching false [] ++ [.addPendingKeys 1 (.singleton (fooKey 98))])).signals fooIndex (.commit 1) := by
  refine (notified_of_run fooIndex
    (watching false [] ++ [.addPendingKeys 1 (.singleton (fooKey 98))] ++ [.commit 1]) ?_ _ _
    (List.prefix_refl _)).1 1 rfl 0
    ⟨MojDbQueryPlan.buildRanges fooIndex (prefixQuery false), false, [], [], .active⟩
    (by decide +kernel) rfl ⟨fooKey 98, by decide +kernel, by decide +kernel, by decide +kernel⟩
  refine ⟨trivial, trivial, trivial, fun p hp => ?_, trivial⟩
  have hdesc : p.2.desc = false := by
    revert p
    decide +kernel
  refine ⟨fun other hother key hkey => ?_, fun h => ?_⟩
  · have hfind : (SortedMap.empty.insert 1 (SortedSet.singleton (fooKey 98)) : SortedMap Nat KeySet).find other = none := by
      simp [hother]
    have hmem : key ∈ keysOf (SortedMap.empty.insert 1 (SortedSet.singleton (fooKey 98))) other := hkey
    rw [keysOf, hfind] at hmem
    exact absurd hmem (SortedSet.not_mem_empty key)
  · rw [hdesc] at h
    cases h

/-- A commit fires a watcher for the pending key of another transaction; and a descending watcher
misses a change within its limit because of a smaller one beyond it. -/
theorem premature_and_lost :
    (∃ (index : MojDbIndex) (ops : List WatchOp) (op : WatchOp) (id : Nat) (key : MojDbKey),
      (id, key) ∈ (run (step index) empty ops).signals index op ∧
      key ∉ ((run (step index) empty ops).step index op).committedKeys) ∧
    ∃ (index : MojDbIndex) (ops : List WatchOp) (txn id : Nat) (w : MojDbWatcher),
      (id, w) ∈ (run (step index) empty ops).index.watcherVec ∧ w.state = .active ∧
      (∃ key ∈ keysOf (run (step index) empty ops).index.pendingKeys txn,
        w.InRanges key ∧ w.inLimit w.limitKey key = true) ∧
      ∀ key, (id, key) ∉ (run (step index) empty ops).signals index (.commit txn) := by
  constructor
  · exact ⟨fooIndex, watching false [] ++ [.addPendingKeys 1 (.singleton (fooKey 98))], .commit 2, 0,
      fooKey 98, by decide +kernel, by decide +kernel⟩
  · refine ⟨fooIndex, watching true (fooKey 99) ++ [.addPendingKeys 1 (.ofList [fooKey 98, fooKey 100])], 1, 0,
      ⟨MojDbQueryPlan.buildRanges fooIndex (prefixQuery true), true, fooKey 99, [], .active⟩,
      by decide +kernel, rfl, ⟨fooKey 100, by decide +kernel, by decide +kernel, by decide +kernel⟩, ?_⟩
    have hnone : (run (step fooIndex) empty (watching true (fooKey 99) ++
        [.addPendingKeys 1 (.ofList [fooKey 98, fooKey 100])])).signals fooIndex (.commit 1) = [] := by
      decide +kernel
    rw [hnone]
    simp

end WatchRun

end Db8
