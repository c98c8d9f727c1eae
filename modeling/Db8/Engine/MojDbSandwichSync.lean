import Db8.Engine.MojDbSandwichLazyUpdater

/-!
# Engine.MojDbSandwichSync

When the writes of all transactions are synced by the last close, and no closed database is synced.

* `unsynced_le_step`, `unsynced_le_run` — nothing syncs the database of a shard other than the main one.
* `Clear`          — the steps that do not lead to an unsynced write or to a late sync.
* `Inv`            — what these steps keep.
* `exists_run_of_not_clear` — after any other step there is a run that does not end well.
* `synced_of_run`  — both, from the state in which nothing is open.
-/

namespace Db8

open Lib MojDbIdGenerator

namespace MojDbSandwich

/-! ## The updater knows one database -/

/-- Only the main shard's database is registered, or copied. -/
structure Main (u : LazyUpdater) : Prop where
  dbs : ∀ e ∈ u.dbs, e.1 = MainShardId
  copy : ∀ rest, u.worker = .syncing rest → ∀ pdb ∈ rest, pdb = MainShardId

namespace Main

variable {u : LazyUpdater}

theorem openDb (h : Main u) : Main (u.openDb MainShardId) := by
  unfold LazyUpdater.openDb
  split_ifs
  · exact h
  · refine ⟨fun e he => ?_, h.copy⟩
    rcases List.mem_cons.mp he with rfl | he
    · rfl
    · exact h.dbs e he

theorem erase (h : Main u) (pdb : MojDbShardId) : Main (u.erase pdb) :=
  ⟨fun e he => h.dbs e (List.mem_of_mem_filter he), h.copy⟩

theorem sendEvent (h : Main u) : Main (u.sendEvent MainShardId) := by
  refine ⟨fun e he => ?_, h.copy⟩
  rcases List.mem_cons.mp he with rfl | he
  · rfl
  · exact (h.erase MainShardId).dbs e he

theorem start (h : Main u) : Main u.start := by
  unfold LazyUpdater.start
  split
  · exact ⟨h.dbs, nofun⟩
  · split_ifs
    · exact ⟨h.dbs, nofun⟩
    · exact h
  · exact h

theorem eq_of_mem_marked (h : Main u) {pdb : MojDbShardId} (hpdb : pdb ∈ u.marked) : pdb = MainShardId := by
  obtain ⟨e, he, rfl⟩ := List.mem_map.mp hpdb
  exact h.dbs e (List.mem_of_mem_filter he)

theorem collect (h : Main u) : Main u.collect := by
  unfold LazyUpdater.collect
  split_ifs
  · exact ⟨h.dbs, nofun⟩
  · refine ⟨fun e he => ?_, fun rest hrest pdb hpdb => ?_⟩
    · obtain ⟨e', he', rfl⟩ := List.mem_map.mp he
      exact h.dbs e' he'
    · cases hrest
      exact h.eq_of_mem_marked hpdb

end Main

/-! ## What a step does -/

/-- Nothing but transactions and mounted shards is another. -/
structure Same (s s' : State) : Prop where
  updater : s'.updater = s.updater
  opened : s'.opened = s.opened
  unsynced : s'.unsynced = s.unsynced
  closed : s'.closed = s.closed
  late : s'.late = s.late

namespace Same

variable {s : State}

theorem refl (s : State) : Same s s := ⟨rfl, rfl, rfl, rfl, rfl⟩

theorem setTxn (t : Nat) (txn : Txn) : Same s (s.setTxn t txn) := ⟨rfl, rfl, rfl, rfl, rfl⟩

theorem sandwiches (shards : List MojDbShardId) : Same s { s with sandwiches := shards } := ⟨rfl, rfl, rfl, rfl, rfl⟩

end Same

/-- The write of the next step of a commit to a shard other than the main one. -/
def shardWrite (s : State) (t : Nat) (ok : Bool) : Option (MojDbShardId × Nat) :=
  match s.txns t with
  | some ⟨_, writes, .shards (pdb :: _) _⟩ => if pdb ≠ MainShardId ∧ ok then some (pdb, writes pdb) else none
  | _ => none

def mainWrite (s : State) (t : Nat) (ok : Bool) : Option (MojDbShardId × Nat) :=
  match s.txns t with
  | some ⟨_, writes, .main _⟩ => if ok then some (MainShardId, writes MainShardId) else none
  | _ => none

def State.written (s : State) : Option (MojDbShardId × Nat) → State
  | none => s
  | some (pdb, n) => s.write pdb n

@[simp] theorem State.written_updater (s : State) (w : Option (MojDbShardId × Nat)) : (s.written w).updater = s.updater := by
  cases w <;> rfl

theorem ne_of_shardWrite {s : State} {t : Nat} {ok : Bool} {pdb : MojDbShardId} {n : Nat}
    (h : shardWrite s t ok = some (pdb, n)) : pdb ≠ MainShardId := by
  unfold shardWrite at h
  split at h
  · split_ifs at h with hpdb
    cases h
    exact hpdb.1
  · cases h

theorem eq_of_mainWrite {s : State} {t : Nat} {ok : Bool} {pdb : MojDbShardId} {n : Nat}
    (h : mainWrite s t ok = some (pdb, n)) : pdb = MainShardId := by
  unfold mainWrite at h
  split at h
  · split_ifs at h
    cases h
    rfl
  · cases h

theorem same_commitShard (s : State) (t : Nat) (ok : Bool) : Same (s.written (shardWrite s t ok)) (commitShard s t ok) := by
  cases htxn : s.txns t with
  | none =>
    simp only [shardWrite, commitShard, htxn]
    exact .refl s
  | some txn =>
    obtain ⟨shards, writes, commit⟩ := txn
    cases commit with
    | shards rest good =>
      cases rest with
      | nil =>
        simp only [shardWrite, commitShard, htxn]
        exact .setTxn t _
      | cons pdb rest =>
        simp only [shardWrite, commitShard, htxn]
        by_cases hpdb : pdb = MainShardId
        · rw [if_neg (by simp [hpdb]), if_pos hpdb]
          exact .setTxn t _
        · rw [if_neg hpdb]
          cases ok with
          | true =>
            rw [if_pos ⟨hpdb, rfl⟩, if_pos rfl]
            exact .setTxn t _
          | false =>
            rw [if_neg (by simp), if_neg nofun]
            exact .setTxn t _
    | _ =>
      simp only [shardWrite, commitShard, htxn]
      exact .refl s

theorem same_commitMain (s : State) (t : Nat) (ok : Bool) : Same (s.written (mainWrite s t ok)) (commitMain s t ok) := by
  cases htxn : s.txns t with
  | none =>
    simp only [mainWrite, commitMain, htxn]
    exact .refl s
  | some txn =>
    obtain ⟨shards, writes, commit⟩ := txn
    cases commit with
    | main good =>
      simp only [mainWrite, commitMain, htxn]
      cases ok with
      | true => exact .setTxn t _
      | false => exact .setTxn t _
    | _ =>
      simp only [mainWrite, commitMain, htxn]
      exact .refl s

/-- Shards are mounted, or transactions prepared. -/
def Action.quiet : Action → Bool
  | .mountShard _ | .unMountShard _ | .beginTxn _ | .put _ _ | .commit _ _ => true
  | _ => false

theorem same_of_quiet (s : State) {a : Action} (ha : a.quiet = true) : Same s (step s a) := by
  cases a with
  | mountShard shardId =>
    dsimp only [step]
    split_ifs
    · exact .refl s
    · exact .sandwiches _
  | unMountShard shardId =>
    dsimp only [step]
    split_ifs
    · exact .refl s
    · exact .sandwiches _
  | beginTxn t =>
    dsimp only [step]
    split_ifs
    · exact .refl s
    · exact .setTxn t _
  | put t shardId =>
    dsimp only [step]
    split
    · split_ifs
      · exact .setTxn t _
      · exact .refl s
    · exact .refl s
  | commit t order =>
    dsimp only [step]
    split
    · split_ifs
      · exact .setTxn t _
      · exact .refl s
    · exact .refl s
  | _ => cases ha

/-! ## Other shards are never synced -/

variable {s : State}

theorem Main.same {s' : State} (h : Main s.updater) (hsame : Same s s') : Main s'.updater := hsame.updater ▸ h

theorem Main.written (h : Main s.updater) (w : Option (MojDbShardId × Nat)) : Main (s.written w).updater := by
  rwa [State.written_updater]

theorem Main.step (h : Main s.updater) (a : Action) : Main (step s a).updater := by
  cases a with
  | start => exact h.start
  | stop => exact ⟨h.dbs, h.copy⟩
  | collect =>
    dsimp only [MojDbSandwich.step]
    split
    · exact h.collect
    · exact h
  | onesync =>
    dsimp only [MojDbSandwich.step]
    split
    · rename_i pdb rest hworker
      refine ⟨h.dbs, fun rest' hrest' pdb' hpdb' => ?_⟩
      cases hrest'
      exact h.copy _ hworker pdb' (List.mem_cons_of_mem pdb hpdb')
    · exact ⟨h.dbs, nofun⟩
    · exact h
  | openDatabase db =>
    dsimp only [MojDbSandwich.step]
    split_ifs
    · exact h
    · exact h.openDb
  | closeDatabase db =>
    have hclose : Main (s.closeUpdater MainShardId).updater := by
      unfold State.closeUpdater
      split_ifs
      · exact h.erase MainShardId
      · exact h
    dsimp only [MojDbSandwich.step, closeDatabase]
    split_ifs
    · exact hclose
    · exact hclose
    · exact h
  | commitShard t ok => exact (h.written _).same (same_commitShard s t ok)
  | commitMain t ok => exact (h.written _).same (same_commitMain s t ok)
  | sendEvent t =>
    dsimp only [MojDbSandwich.step]
    split
    · exact h.sendEvent
    · exact h
  | _ => exact h.same (same_of_quiet s rfl)

/-- No step syncs the database of another shard. -/
theorem unsynced_le_step (h : Main s.updater) {pdb : MojDbShardId} (hpdb : pdb ≠ MainShardId) (a : Action) :
    s.unsynced pdb ≤ (step s a).unsynced pdb := by
  have hwritten : ∀ w, s.unsynced pdb ≤ (s.written w).unsynced pdb := by
    rintro (_ | ⟨x, n⟩)
    · exact le_rfl
    · rcases eq_or_ne pdb x with rfl | hx
      · simp [State.written, State.write]
      · simp [State.written, State.write, hx]
  have hclose : (s.closeUpdater MainShardId).unsynced pdb = s.unsynced pdb := by
    unfold State.closeUpdater
    split_ifs
    · exact Function.update_of_ne hpdb _ _
    · rfl
  cases a with
  | start => exact le_rfl
  | stop => exact le_rfl
  | collect =>
    dsimp only [step]
    split <;> exact le_rfl
  | onesync =>
    dsimp only [step]
    split
    · rename_i x rest hworker
      have hx := h.copy _ hworker x List.mem_cons_self
      exact (Function.update_of_ne (hx ▸ hpdb) _ _).ge
    · exact le_rfl
    · exact le_rfl
  | openDatabase db =>
    dsimp only [step]
    split_ifs <;> exact le_rfl
  | closeDatabase db =>
    dsimp only [step, closeDatabase]
    split_ifs
    · exact hclose.ge
    · exact hclose.ge
    · exact le_rfl
  | commitShard t ok =>
    change _ ≤ (commitShard s t ok).unsynced pdb
    rw [(same_commitShard s t ok).unsynced]
    exact hwritten _
  | commitMain t ok =>
    change _ ≤ (commitMain s t ok).unsynced pdb
    rw [(same_commitMain s t ok).unsynced]
    exact hwritten _
  | sendEvent t =>
    dsimp only [step]
    split <;> exact le_rfl
  | _ => exact (congrFun (same_of_quiet s rfl).unsynced pdb).ge

theorem unsynced_le_run (h : Main s.updater) {pdb : MojDbShardId} (hpdb : pdb ≠ MainShardId) (as : List Action) :
    s.unsynced pdb ≤ (run step s as).unsynced pdb := by
  induction as generalizing s with
  | nil => exact le_rfl
  | cons a as ih => exact (unsynced_le_step h hpdb a).trans (ih (h.step a))

/-! ## Steps that keep everything synced -/

/-- The last close finds the main shard registered or synced, and not in the copy of a `sync` under way; and nothing is registered
when a database is closed once more later. -/
def ClearClose (s : State) (db : Nat) : Prop :=
  if db ∈ s.opened then
    s.opened.erase db = [] → s.updater.pending MainShardId = false ∧
      (s.updater.registered MainShardId = true ∨ s.unsynced MainShardId = 0)
  else db ∈ s.shut → s.closed = true → s.updater.registered MainShardId = false

/-- A commit writes to the main shard, while a database is open; and no database is marked when the worker collects later. -/
def Clear (s : State) : Action → Prop
  | .commitShard t ok => ∀ pdb n, shardWrite s t ok = some (pdb, n) → n = 0
  | .commitMain t ok => s.closed = true → ∀ pdb n, mainWrite s t ok = some (pdb, n) → n = 0
  | .closeDatabase db => ClearClose s db
  | .collect => s.closed = true → s.updater.worker = .waiting → s.updater.stop = false → MainShardId ∉ s.updater.marked
  | _ => True

structure Inv (s : State) : Prop where
  main : Main s.updater
  others : ∀ pdb, pdb ≠ MainShardId → s.unsynced pdb = 0
  closed_opened : s.closed = true → s.opened = []
  closed_synced : s.closed = true → s.unsynced MainShardId = 0
  closed_copy : s.closed = true → s.updater.pending MainShardId = false
  late : s.late = false

namespace Inv

theorem init : Inv .init := ⟨⟨nofun, nofun⟩, fun _ _ => rfl, nofun, nofun, nofun, rfl⟩

theorem same {s' : State} (h : Inv s) (hsame : Same s s') : Inv s' := by
  obtain ⟨hupdater, hopened, hunsynced, hclosed, hlate⟩ := hsame
  obtain ⟨hmain, hothers, hclosed_opened, hclosed_synced, hclosed_copy, hlate'⟩ := h
  constructor
  · rwa [hupdater]
  · rwa [hunsynced]
  · rwa [hclosed, hopened]
  · rwa [hclosed, hunsynced]
  · rwa [hclosed, hupdater]
  · rwa [hlate]

theorem synced (h : Inv s) : Synced s := by
  refine ⟨fun hclosed pdb => ?_, h.late⟩
  rcases eq_or_ne pdb MainShardId with rfl | hpdb
  · exact h.closed_synced hclosed
  · exact h.others pdb hpdb

/-- Something else is done by the updater than to sync. -/
theorem setUpdater {u : LazyUpdater} (h : Inv s) (hmain : Main u)
    (hcopy : s.closed = true → u.pending MainShardId = false) : Inv { s with updater := u } :=
  ⟨hmain, h.others, h.closed_opened, h.closed_synced, hcopy, h.late⟩

/-- A write that `Clear` allows. -/
theorem written (h : Inv s) {w : Option (MojDbShardId × Nat)}
    (hw : ∀ pdb n, w = some (pdb, n) → pdb ≠ MainShardId ∨ s.closed = true → n = 0) : Inv (s.written w) := by
  cases w with
  | none => exact h
  | some w =>
    obtain ⟨pdb, n⟩ := w
    have hzero := hw pdb n rfl
    refine ⟨h.main, fun x hx => ?_, h.closed_opened, fun hclosed => ?_, h.closed_copy, h.late⟩
    · change Function.update s.unsynced pdb _ x = 0
      rcases eq_or_ne x pdb with rfl | hne
      · simp [h.others x hx, hzero (.inl hx)]
      · rw [Function.update_of_ne hne, h.others x hx]
    · change Function.update s.unsynced pdb _ MainShardId = 0
      rcases eq_or_ne MainShardId pdb with rfl | hne
      · simp [h.closed_synced hclosed, hzero (.inr hclosed)]
      · rw [Function.update_of_ne hne, h.closed_synced hclosed]

theorem onesync_others (h : Inv s) (pdb x : MojDbShardId) (hx : x ≠ MainShardId) : (s.onesync pdb).unsynced x = 0 := by
  change Function.update s.unsynced pdb 0 x = 0
  rcases eq_or_ne x pdb with rfl | hne
  · simp
  · rw [Function.update_of_ne hne, h.others x hx]

/-- The worker syncs only while a database is open. -/
theorem closed_of_syncing (h : Inv s) {pdb : MojDbShardId} {rest : List MojDbShardId}
    (hworker : s.updater.worker = .syncing (pdb :: rest)) : s.closed = false := by
  by_contra hclosed
  have hpdb := h.main.copy _ hworker pdb List.mem_cons_self
  have hcopy := h.closed_copy (by simpa using hclosed)
  simp [LazyUpdater.pending, hworker, hpdb] at hcopy

theorem closed_of_opened (h : Inv s) {db : Nat} (hdb : db ∈ s.opened) : s.closed = false := by
  by_contra hclosed
  rw [h.closed_opened (by simpa using hclosed)] at hdb
  cases hdb

/-- `close` of the updater, while a database is open or the main shard is not registered. -/
theorem closeUpdater (h : Inv s) (hopen : s.closed = true → s.updater.registered MainShardId = false) :
    Inv (s.closeUpdater MainShardId) := by
  unfold State.closeUpdater
  split_ifs with hregistered
  · have hclosed : s.closed = false := by
      by_contra hclosed
      rw [hopen (by simpa using hclosed)] at hregistered
      cases hregistered
    refine ⟨h.main.erase MainShardId, h.onesync_others MainShardId, h.closed_opened, ?_, h.closed_copy, ?_⟩
    · exact fun _ => Function.update_self MainShardId 0 s.unsynced
    · change (s.late || s.closed) = false
      rw [h.late, hclosed, Bool.false_or]
  · exact h

theorem closeDatabase {db : Nat} (h : Inv s) (hclear : ClearClose s db) : Inv (closeDatabase s db) := by
  unfold MojDbSandwich.closeDatabase
  unfold ClearClose at hclear
  split_ifs at hclear ⊢ with hopened hshut
  · have hclosed := h.closed_of_opened hopened
    have hclose := h.closeUpdater fun hc => absurd (hclosed ▸ hc) nofun
    refine ⟨hclose.main, hclose.others, fun hlast => ?_, fun hlast => ?_, fun hlast => ?_, hclose.late⟩
    · exact of_decide_eq_true hlast
    · obtain ⟨-, hsynced⟩ := hclear (of_decide_eq_true hlast)
      change (s.closeUpdater MainShardId).unsynced MainShardId = 0
      unfold State.closeUpdater
      split_ifs with hregistered
      · exact Function.update_self MainShardId 0 s.unsynced
      · exact hsynced.resolve_left hregistered
    · obtain ⟨hcopy, -⟩ := hclear (of_decide_eq_true hlast)
      change (s.closeUpdater MainShardId).updater.pending MainShardId = false
      unfold State.closeUpdater
      split_ifs
      · exact hcopy
      · exact hcopy
  · exact h.closeUpdater (hclear hshut)
  · exact h

theorem step {a : Action} (h : Inv s) (hclear : Clear s a) : Inv (step s a) := by
  cases a with
  | start =>
    refine h.setUpdater h.main.start fun hclosed => ?_
    unfold LazyUpdater.start
    split
    · rfl
    · split_ifs
      · rfl
      · exact h.closed_copy hclosed
    · exact h.closed_copy hclosed
  | stop => exact h.setUpdater ⟨h.main.dbs, h.main.copy⟩ h.closed_copy
  | collect =>
    dsimp only [MojDbSandwich.step]
    split
    · rename_i hworker
      refine h.setUpdater h.main.collect fun hclosed => ?_
      unfold LazyUpdater.collect
      split_ifs with hstop
      · rfl
      · exact decide_eq_false (hclear hclosed hworker (by simpa using hstop))
    · exact h
  | onesync =>
    dsimp only [MojDbSandwich.step]
    split
    · rename_i pdb rest hworker
      have hclosed := h.closed_of_syncing hworker
      refine ⟨⟨h.main.dbs, fun rest' hrest' x hx => ?_⟩, h.onesync_others pdb, h.closed_opened, ?_, ?_, ?_⟩
      · cases hrest'
        exact h.main.copy _ hworker x (List.mem_cons_of_mem pdb hx)
      · exact fun hc => absurd (hclosed ▸ hc) nofun
      · exact fun hc => absurd (hclosed ▸ hc) nofun
      · change (s.late || s.closed) = false
        rw [h.late, hclosed, Bool.false_or]
    · exact h.setUpdater ⟨h.main.dbs, nofun⟩ fun _ => rfl
    · exact h
  | openDatabase db =>
    dsimp only [MojDbSandwich.step]
    split_ifs
    · exact h
    · exact ⟨h.main.openDb, h.others, nofun, nofun, nofun, h.late⟩
  | closeDatabase db => exact h.closeDatabase hclear
  | commitShard t ok =>
    exact (h.written fun pdb n hw _ => hclear pdb n hw).same (same_commitShard s t ok)
  | commitMain t ok =>
    refine (h.written fun pdb n hw hor => ?_).same (same_commitMain s t ok)
    exact hclear (hor.resolve_left fun hne => hne (eq_of_mainWrite hw)) pdb n hw
  | sendEvent t =>
    dsimp only [MojDbSandwich.step]
    split
    · exact (h.same (.setTxn t _)).setUpdater h.main.sendEvent h.closed_copy
    · exact h
  | _ => exact h.same (same_of_quiet s rfl)

end Inv

/-! ## Other steps -/

theorem exists_closed_of_opened {l : List Nat} (hl : s.opened = l) (hne : l ≠ []) : ∃ bs, (run step s bs).closed = true := by
  induction l generalizing s with
  | nil => exact absurd rfl hne
  | cons db l ih =>
    have hmem : db ∈ s.opened := hl ▸ List.mem_cons_self
    have herase : s.opened.erase db = l := by rw [hl, List.erase_cons_head]
    have hopened : (step s (.closeDatabase db)).opened = l := by simp [step, closeDatabase, hmem, herase]
    have hclosed : (step s (.closeDatabase db)).closed = decide (l = []) := by
      simp [step, closeDatabase, hmem, herase]
    by_cases hlast : l = []
    · exact ⟨[.closeDatabase db], by simp [hclosed, hlast]⟩
    · obtain ⟨bs, hbs⟩ := ih hopened hlast
      exact ⟨.closeDatabase db :: bs, hbs⟩

/-- From any state on all databases can be closed. -/
theorem exists_closed (s : State) : ∃ bs, (run step s bs).closed = true := by
  by_cases hopened : s.opened = []
  · obtain ⟨db, hdb⟩ := Infinite.exists_notMem_finset s.shut.toFinset
    have hshut : db ∉ s.shut := by simpa using hdb
    have hopen : (step s (.openDatabase db)).opened = [db] := by simp [step, hopened, hshut]
    obtain ⟨bs, hbs⟩ := exists_closed_of_opened hopen (by simp)
    exact ⟨.openDatabase db :: bs, hbs⟩
  · exact exists_closed_of_opened rfl hopened

/-- What is in the copy after the close is synced all the same. -/
theorem not_synced_of_pending (hclosed : s.closed = true)
    (hpending : s.updater.pending MainShardId = true) : ¬Synced (run step s [.onesync]) := by
  intro hsynced
  cases hworker : s.updater.worker with
  | syncing rest =>
    cases rest with
    | nil => simp [LazyUpdater.pending, hworker] at hpending
    | cons pdb rest =>
      have hlate := hsynced.late
      simp [step, hworker, State.onesync, hclosed] at hlate
  | _ => simp [LazyUpdater.pending, hworker] at hpending

theorem exists_run_of_not_clear {a : Action} (h : Inv s) (hclear : ¬Clear s a) : ∃ bs, ¬Synced (run step (step s a) bs) := by
  cases a with
  | commitShard t ok =>
    obtain ⟨pdb, n, hwrite, hn⟩ : ∃ pdb n, shardWrite s t ok = some (pdb, n) ∧ n ≠ 0 := by
      simpa [Clear] using hclear
    have hpdb := ne_of_shardWrite hwrite
    have hunsynced : (step s (.commitShard t ok)).unsynced pdb = s.unsynced pdb + n := by
      have hsame := (same_commitShard s t ok).unsynced
      rw [hwrite] at hsame
      exact (congrFun hsame pdb).trans (Function.update_self _ _ _)
    obtain ⟨bs, hbs⟩ := exists_closed (step s (.commitShard t ok))
    refine ⟨bs, fun hsynced => ?_⟩
    have hzero := hsynced.followed hbs pdb
    have hle := unsynced_le_run (h.main.step (.commitShard t ok)) hpdb bs
    omega
  | commitMain t ok =>
    obtain ⟨hclosed, pdb, n, hwrite, hn⟩ : s.closed = true ∧ ∃ pdb n, mainWrite s t ok = some (pdb, n) ∧ n ≠ 0 := by
      simpa [Clear] using hclear
    have hsame := same_commitMain s t ok
    rw [hwrite] at hsame
    refine ⟨[], fun hsynced => ?_⟩
    have hzero := hsynced.followed (hsame.closed.trans hclosed) pdb
    have hunsynced : (commitMain s t ok).unsynced pdb = s.unsynced pdb + n :=
      (congrFun hsame.unsynced pdb).trans (Function.update_self _ _ _)
    change (commitMain s t ok).unsynced pdb = 0 at hzero
    omega
  | closeDatabase db =>
    change ¬ClearClose s db at hclear
    unfold ClearClose at hclear
    split_ifs at hclear with hopened
    · obtain ⟨hlast, hbad⟩ := Classical.not_imp.mp hclear
      have hclosed : (step s (.closeDatabase db)).closed = true := by simp [step, closeDatabase, hopened, hlast]
      by_cases hpending : s.updater.pending MainShardId = true
      · refine ⟨[.onesync], not_synced_of_pending hclosed ?_⟩
        have hcopy : (step s (.closeDatabase db)).updater.worker = s.updater.worker := by
          simp only [step, closeDatabase, if_pos hopened, State.closeUpdater]
          split_ifs <;> rfl
        simpa [LazyUpdater.pending, hcopy] using hpending
      · obtain ⟨hregistered, hunsynced⟩ : s.updater.registered MainShardId = false ∧ s.unsynced MainShardId ≠ 0 := by
          simpa [hpending] using hbad
        refine ⟨[], fun hsynced => hunsynced ?_⟩
        have hzero := hsynced.followed hclosed MainShardId
        simpa [step, closeDatabase, hopened, State.closeUpdater, hregistered] using hzero
    · obtain ⟨hshut, hclosed, hregistered⟩ : db ∈ s.shut ∧ s.closed = true ∧ s.updater.registered MainShardId = true := by
        simpa using hclear
      refine ⟨[], fun hsynced => ?_⟩
      have hlate := hsynced.late
      simp [step, closeDatabase, hopened, hshut, State.closeUpdater, hregistered, State.onesync, hclosed] at hlate
  | collect =>
    obtain ⟨hclosed, hworker, hstop, hmarked⟩ : s.closed = true ∧ s.updater.worker = .waiting ∧ s.updater.stop = false ∧
        MainShardId ∈ s.updater.marked := by
      simpa [Clear] using hclear
    refine ⟨[.onesync], not_synced_of_pending ?_ ?_⟩
    · simpa [step, hworker] using hclosed
    · simpa [step, hworker, LazyUpdater.collect, hstop, LazyUpdater.pending] using hmarked
  | _ => exact absurd trivial hclear

/-- **Everything is synced in time as long as every step is clear.** After the first step that is not, there is a run that ends with
a write unsynced or with a late sync. -/
theorem synced_of_run (as : List Action) (h : Along step Clear .init as) :
    (∀ bs, bs <+: as → Synced (run step .init bs)) ∧
      ∀ a, ¬Clear (run step .init as) a → ∃ bs, ¬Synced (run step .init (as ++ a :: bs)) := by
  have hinv : ∀ bs, bs <+: as → Inv (run step .init bs) := fun bs hbs =>
    (h.of_isPrefix hbs).invariant Inv (fun _ _ hs hclear => hs.step hclear) .init
  refine ⟨fun bs hbs => (hinv bs hbs).synced, fun a ha => ?_⟩
  obtain ⟨bs, hbs⟩ := exists_run_of_not_clear (hinv as List.prefix_rfl) ha
  refine ⟨bs, ?_⟩
  rw [run_append]
  exact hbs

/-- A transaction on the main shard, which the worker syncs before the close. -/
def syncedRun : List Action :=
  [.openDatabase 1, .start, .beginTxn 0, .put 0 MainShardId, .commit 0 [MainShardId], .commitShard 0 true, .commitShard 0 true,
    .commitMain 0 true, .sendEvent 0, .collect, .onesync, .onesync, .closeDatabase 1, .stop, .collect]

theorem synced_of_run_main : Synced (run step .init syncedRun) := by
  refine (synced_of_run syncedRun ?_).1 syncedRun List.prefix_rfl
  refine ⟨trivial, trivial, trivial, trivial, trivial, nofun, nofun, nofun, trivial, nofun, trivial, trivial, ?_, trivial, ?_, trivial⟩
  · exact fun _ => ⟨rfl, .inl rfl⟩
  · exact fun _ _ hstop => nomatch hstop

/-- A write to another shard is never synced; a `sync` outlives the close; a commit ends behind the first of two closes. -/
theorem not_synced_of_runs :
    ¬Synced (run step .init [.openDatabase 1, .mountShard 8, .beginTxn 0, .put 0 8, .commit 0 [8, MainShardId],
      .commitShard 0 true, .commitShard 0 true, .commitShard 0 true, .commitMain 0 true, .sendEvent 0, .closeDatabase 1]) ∧
    ¬Synced (run step .init [.openDatabase 1, .start, .beginTxn 0, .put 0 MainShardId, .commit 0 [MainShardId],
      .commitShard 0 true, .commitShard 0 true, .commitMain 0 true, .sendEvent 0, .collect, .closeDatabase 1, .onesync]) ∧
    ¬Synced (run step .init [.openDatabase 1, .openDatabase 2, .beginTxn 0, .put 0 MainShardId, .commit 0 [MainShardId],
      .commitShard 0 true, .commitShard 0 true, .closeDatabase 1, .commitMain 0 true, .closeDatabase 2, .sendEvent 0]) := by
  refine ⟨fun h => ?_, fun h => ?_, fun h => ?_⟩
  · have hzero := h.followed (by decide) 8
    revert hzero
    decide
  · have hlate := h.late
    revert hlate
    decide
  · have hzero := h.followed (by decide) MainShardId
    revert hzero
    decide

end MojDbSandwich

end Db8
