import Db8.Db.MojDbIdGenerator
import Db8.Lib.Run

/-!
# Engine.MojDbSandwichLazyUpdater

Databases that are synced behind the commits: transactions over the mounted shards, the databases that are opened and closed,
and the worker that syncs what is marked.

* `LazyUpdater`     — the marks, and the worker with the copy of them that it works on.
* `Txn`             — a transaction, with its commit at a point between two atomic steps.
* `State`, `step`   — one atomic step of any of them.
* `Synced`          — no write is left unsynced by the last close, and no closed database is synced.

Each shard has a leveldb of its own, which stands for the pointer to it. All `MojDbSandwichDatabase`s use that of the main shard.
-/

namespace Db8

open MojDbIdGenerator

namespace MojDbSandwich

/-! ## The updater -/

/-- `threadMain`, with the rest of `dbs_copy` while it is in `sync`. -/
inductive Worker where
  | none
  | waiting
  | syncing (rest : List MojDbShardId)
  | ended
  deriving DecidableEq

structure LazyUpdater where
  dbs : List (MojDbShardId × Bool)
  worker : Worker
  stop : Bool

namespace LazyUpdater

def registered (u : LazyUpdater) (pdb : MojDbShardId) : Bool := pdb ∈ u.dbs.map Prod.fst

def marked (u : LazyUpdater) : List MojDbShardId := (u.dbs.filter Prod.snd).map Prod.fst

def openDb (u : LazyUpdater) (pdb : MojDbShardId) : LazyUpdater :=
  if u.registered pdb then u else { u with dbs := (pdb, false) :: u.dbs }

def erase (u : LazyUpdater) (pdb : MojDbShardId) : LazyUpdater := { u with dbs := u.dbs.filter fun e => e.1 ≠ pdb }

/-- `m_dbs[pdb] = true` -/
def sendEvent (u : LazyUpdater) (pdb : MojDbShardId) : LazyUpdater := { u.erase pdb with dbs := (pdb, true) :: (u.erase pdb).dbs }

/-- `start`; it waits for a worker that was told to stop. -/
def start (u : LazyUpdater) : LazyUpdater :=
  match u.worker with
  | .none => { u with worker := .waiting, stop := false }
  | .ended => if u.stop then { u with worker := .waiting, stop := false } else u
  | _ => u

/-- The head of the loop of `threadMain`, and the part of `sync` under the lock. -/
def collect (u : LazyUpdater) : LazyUpdater :=
  if u.stop then { u with worker := .ended }
  else { u with dbs := u.dbs.map fun e => (e.1, false), worker := .syncing u.marked }

/-- The copy has the database still to sync. -/
def pending (u : LazyUpdater) (pdb : MojDbShardId) : Bool :=
  match u.worker with
  | .syncing rest => pdb ∈ rest
  | _ => false

end LazyUpdater

/-! ## Transactions -/

/-- How far `commitImpl` is. `ok` is whether `statuses` is empty. -/
inductive Commit where
  | none
  | shards (rest : List MojDbShardId) (ok : Bool)
  | main (ok : Bool)
  | sendEvent
  | done
  deriving DecidableEq

/-- The shards that were mounted when the transaction began, and how many writes it has for each. -/
structure Txn where
  shards : List MojDbShardId
  writes : MojDbShardId → Nat
  commit : Commit

/-! ## The engine -/

/-- `unsynced` counts the writes that are committed to a database and not followed by a sync of it. `closed` is set from the
close of the last database until one is opened, and `late` by a sync in that time. -/
structure State where
  updater : LazyUpdater
  sandwiches : List MojDbShardId
  opened : List Nat
  shut : List Nat
  txns : Nat → Option Txn
  unsynced : MojDbShardId → Nat
  closed : Bool
  late : Bool

namespace State

def init : State := ⟨⟨[], .none, false⟩, [MainShardId], [], [], fun _ => none, fun _ => 0, false, false⟩

/-- A delete of nothing, written through. -/
def onesync (s : State) (pdb : MojDbShardId) : State :=
  { s with unsynced := Function.update s.unsynced pdb 0, late := s.late || s.closed }

/-- `MojDbSandwichLazyUpdater::close` -/
def closeUpdater (s : State) (pdb : MojDbShardId) : State :=
  if s.updater.registered pdb then { s.onesync pdb with updater := s.updater.erase pdb } else s

/-- A write to a database that returns. -/
def write (s : State) (pdb : MojDbShardId) (n : Nat) : State :=
  { s with unsynced := Function.update s.unsynced pdb (s.unsynced pdb + n) }

def setTxn (s : State) (t : Nat) (txn : Txn) : State := { s with txns := Function.update s.txns t (some txn) }

end State

/-- A shard that is committed has the status `ok`, and without it nothing is written. -/
inductive Action where
  | start
  | stop
  | collect
  | onesync
  | openDatabase (db : Nat)
  | closeDatabase (db : Nat)
  | mountShard (shardId : MojDbShardId)
  | unMountShard (shardId : MojDbShardId)
  | beginTxn (t : Nat)
  | put (t : Nat) (shardId : MojDbShardId)
  | commit (t : Nat) (order : List MojDbShardId)
  | commitShard (t : Nat) (ok : Bool)
  | commitMain (t : Nat) (ok : Bool)
  | sendEvent (t : Nat)

/-- The next shard of `m_txn`; the main one is passed over. -/
def commitShard (s : State) (t : Nat) (ok : Bool) : State :=
  match s.txns t with
  | some ⟨shards, writes, .shards (pdb :: rest) good⟩ =>
    if pdb = MainShardId then s.setTxn t ⟨shards, writes, .shards rest good⟩
    else if ok then (s.write pdb (writes pdb)).setTxn t ⟨shards, writes, .shards rest good⟩
    else s.setTxn t ⟨shards, writes, .shards rest false⟩
  | some ⟨shards, writes, .shards [] good⟩ => s.setTxn t ⟨shards, writes, .main good⟩
  | _ => s

/-- `m_txnMain->commit()`; an error of any shard returns before `sendEvent`. -/
def commitMain (s : State) (t : Nat) (ok : Bool) : State :=
  match s.txns t with
  | some ⟨shards, writes, .main good⟩ =>
    if ok then (s.write MainShardId (writes MainShardId)).setTxn t ⟨shards, writes, if good then .sendEvent else .done⟩
    else s.setTxn t ⟨shards, writes, .done⟩
  | _ => s

/-- `close`, also that of the destructor: the name of a closed database is an empty string, which is not null, and `valid` holds
of it as before. -/
def closeDatabase (s : State) (db : Nat) : State :=
  if db ∈ s.opened then
    { s.closeUpdater MainShardId with
      opened := s.opened.erase db, shut := db :: s.shut, closed := decide (s.opened.erase db = []) }
  else if db ∈ s.shut then s.closeUpdater MainShardId
  else s

/-- An action that cannot be done now changes nothing. -/
def step (s : State) : Action → State
  | .start => { s with updater := s.updater.start }
  | .stop => { s with updater := { s.updater with stop := true } }
  | .collect =>
    match s.updater.worker with
    | .waiting => { s with updater := s.updater.collect }
    | _ => s
  | .onesync =>
    match s.updater.worker with
    | .syncing (pdb :: rest) => { s.onesync pdb with updater := { s.updater with worker := .syncing rest } }
    | .syncing [] => { s with updater := { s.updater with worker := .waiting } }
    | _ => s
  | .openDatabase db =>
    if db ∈ s.opened ∨ db ∈ s.shut then s
    else { s with updater := s.updater.openDb MainShardId, opened := db :: s.opened, closed := false }
  | .closeDatabase db => closeDatabase s db
  | .mountShard shardId => if shardId ∈ s.sandwiches then s else { s with sandwiches := shardId :: s.sandwiches }
  | .unMountShard shardId =>
    if shardId = MainShardId then s else { s with sandwiches := s.sandwiches.erase shardId }
  | .beginTxn t => if (s.txns t).isSome then s else s.setTxn t ⟨s.sandwiches, fun _ => 0, .none⟩
  | .put t shardId =>
    match s.txns t with
    | some ⟨shards, writes, .none⟩ =>
      if shardId ∈ shards then s.setTxn t ⟨shards, Function.update writes shardId (writes shardId + 1), .none⟩ else s
    | _ => s
  | .commit t order =>
    match s.txns t with
    | some ⟨shards, writes, .none⟩ => if order.Perm shards then s.setTxn t ⟨shards, writes, .shards order true⟩ else s
    | _ => s
  | .commitShard t ok => commitShard s t ok
  | .commitMain t ok => commitMain s t ok
  | .sendEvent t =>
    match s.txns t with
    | some ⟨shards, writes, .sendEvent⟩ =>
      { s.setTxn t ⟨shards, writes, .done⟩ with updater := s.updater.sendEvent MainShardId }
    | _ => s

/-- What is expected of the state after any run. -/
structure Synced (s : State) : Prop where
  followed : s.closed = true → ∀ pdb, s.unsynced pdb = 0
  late : s.late = false

end MojDbSandwich

end Db8
