import Db8.Core.MojErr
import Db8.Db.MojDbIdGenerator
import Db8.Engine.MojDbLevelTxn

/-!
# Engine.MojDbEnvTxn

The commit of a storage transaction, whose writes go to several shards or databases.

* `TxnPart`            — one shard or database with the writes that are buffered for it.
* `commitShards`, `commitTables` — the loops of the two engines over the parts.
* `commit`             — the slots before, the writes, the slots after.
* `allOrNothing_iff`   — when the outcome is one of all or nothing.
-/

namespace Db8

open Lib

/-- A shard of the sandwich engine, or a database of the leveldb engine. A part without buffered writes stands for one
the transaction does not use. -/
structure TxnPart (κ ν : Type*) [LinearOrder κ] where
  id : MojDbShardId
  table : MojDbLevelTableTxn κ ν

namespace TxnPart

variable {κ ν : Type*} [LinearOrder κ]

/-- One write batch, which the store takes as a whole or not at all. -/
def commit (writes : MojDbShardId → Option MojErr) (p : TxnPart κ ν) : TxnPart κ ν :=
  if writes p.id = none then { p with table := .begin p.table.merged } else p

def hasPending (p : TxnPart κ ν) : Bool :=
  !p.table.pendingDeletes.elems.isEmpty || !p.table.pendingValues.entries.isEmpty

end TxnPart

inductive BufferedWrite (κ ν : Type*) where
  | put (id : MojDbShardId) (key : κ) (val : ν)
  | del (id : MojDbShardId) (key : κ)

/-- The sandwich engine has a main shard. -/
inductive MojDbEnvTxn (κ ν : Type*) [LinearOrder κ] where
  | sandwich (txn : List (TxnPart κ ν)) (main_mem : ∃ p ∈ txn, p.id = MojDbIdGenerator.MainShardId)
  | leveldb (tableTxns : List (TxnPart κ ν))

namespace MojDbEnvTxn

variable {κ ν : Type*} [LinearOrder κ]

open MojDbIdGenerator (MainShardId)

/-! ## The loops -/

/-- The shards but the main one, with the errors of those whose write fails. -/
def commitShards (writes : MojDbShardId → Option MojErr) : List (TxnPart κ ν) → List (TxnPart κ ν) × List MojErr
  | [] => ([], [])
  | p :: txn =>
    let (txn, statuses) := commitShards writes txn
    if p.id = MainShardId then (p :: txn, statuses)
    else (p.commit writes :: txn, (writes p.id).toList ++ statuses)

/-- Only pending values and deletes are written. -/
def tableErr (writes : MojDbShardId → Option MojErr) (p : TxnPart κ ν) : Option MojErr :=
  if p.hasPending then writes p.id else none

/-- `MojErrAccumulate` keeps the last error. -/
def commitTables (writes : MojDbShardId → Option MojErr) :
    Option MojErr → List (TxnPart κ ν) → List (TxnPart κ ν) × Option MojErr
  | accErr, [] => ([], accErr)
  | accErr, p :: tableTxns =>
    let err := tableErr writes p
    let (tableTxns, accErr) := commitTables writes (if err = none then accErr else err) tableTxns
    ((if err = none then { p with table := .begin p.table.merged } else { p with table := .begin p.table.db }) ::
      tableTxns, accErr)

def commitMain (writes : MojDbShardId → Option MojErr) (txn : List (TxnPart κ ν)) : List (TxnPart κ ν) :=
  txn.map fun p => if p.id = MainShardId then p.commit writes else p

/-- The main shard comes last, and its error first. The parts are what the store holds afterwards. -/
def commitImpl (writes : MojDbShardId → Option MojErr) : MojDbEnvTxn κ ν → Except MojErr Unit × List (TxnPart κ ν)
  | .sandwich txn _ =>
    let (txn, statuses) := commitShards writes txn
    let txn := commitMain writes txn
    match writes MainShardId with
    | some err => (.error err, txn)
    | none =>
      match statuses with
      | err :: _ => (.error err, txn)
      | [] => (.ok (), txn)
  | .leveldb tableTxns =>
    match commitTables writes none tableTxns with
    | (tableTxns, some err) => (.error err, tableTxns)
    | (tableTxns, none) => (.ok (), tableTxns)

def parts : MojDbEnvTxn κ ν → List (TxnPart κ ν)
  | .sandwich txn _ => txn
  | .leveldb tableTxns => tableTxns

def contents (parts : List (TxnPart κ ν)) : List (SortedMap κ ν) := parts.map (·.table.db)

/-- What the parts hold with the buffered writes. -/
def mergedContents (parts : List (TxnPart κ ν)) : List (SortedMap κ ν) := parts.map (·.table.merged)

/-! ## The slots -/

def bufferPart (w : BufferedWrite κ ν) (p : TxnPart κ ν) : TxnPart κ ν :=
  match w with
  | .put id key val => if p.id = id then { p with table := p.table.put key val } else p
  | .del id key => if p.id = id then { p with table := p.table.del key } else p

theorem id_bufferPart (w : BufferedWrite κ ν) (p : TxnPart κ ν) : (bufferPart w p).id = p.id := by
  unfold bufferPart
  cases w with
  | put id key val => dsimp only; split_ifs <;> rfl
  | del id key => dsimp only; split_ifs <;> rfl

theorem db_bufferPart (w : BufferedWrite κ ν) (p : TxnPart κ ν) : (bufferPart w p).table.db = p.table.db := by
  unfold bufferPart
  cases w with
  | put id key val => dsimp only; split_ifs <;> rfl
  | del id key => dsimp only; split_ifs <;> rfl

theorem main_mem_map {txn : List (TxnPart κ ν)} (h : ∃ p ∈ txn, p.id = MainShardId) (w : BufferedWrite κ ν) :
    ∃ p ∈ txn.map (bufferPart w), p.id = MainShardId := by
  obtain ⟨p, hp, hid⟩ := h
  exact ⟨bufferPart w p, List.mem_map_of_mem hp, (id_bufferPart w p).trans hid⟩

def buffer (txn : MojDbEnvTxn κ ν) (w : BufferedWrite κ ν) : MojDbEnvTxn κ ν :=
  match txn with
  | .sandwich txn main_mem => .sandwich (txn.map (bufferPart w)) (main_mem_map main_mem w)
  | .leveldb tableTxns => .leveldb (tableTxns.map (bufferPart w))

/-- The part of the quota engine in a commit. -/
structure QuotaSlots (κ ν : Type*) where
  /-- The usage is written in the transaction. -/
  applyUsage : Except MojErr (List (BufferedWrite κ ν))
  applyQuota : Except MojErr Unit
  refreshQuotas : Bool
  refresh : Except MojErr Unit

/-- What runs before and after the writes, each with what it writes or returns. -/
structure CommitSlots (κ ν : Type*) where
  preCommit : Except MojErr (List (BufferedWrite κ ν))
  quotaEngine : Option (QuotaSlots κ ν)
  postCommit : Except MojErr Unit
  monitors : List (Except MojErr Unit)

namespace CommitSlots

variable (slots : CommitSlots κ ν)

/-- The transaction as the writes find it. -/
def before (txn : MojDbEnvTxn κ ν) : Except MojErr (MojDbEnvTxn κ ν) := do
  let writes ← slots.preCommit
  let txn := writes.foldl buffer txn
  match slots.quotaEngine with
  | none => return txn
  | some quota =>
    let usage ← quota.applyUsage
    return usage.foldl buffer txn

def after : Except MojErr Unit := do
  slots.postCommit
  if let some quota := slots.quotaEngine then
    quota.applyQuota
    if quota.refreshQuotas then quota.refresh
  slots.monitors.forM id

end CommitSlots

def commit (slots : CommitSlots κ ν) (writes : MojDbShardId → Option MojErr) (txn : MojDbEnvTxn κ ν) :
    Except MojErr Unit × List (TxnPart κ ν) :=
  match slots.before txn with
  | .error err => (.error err, txn.parts)
  | .ok txn =>
    match txn.commitImpl writes with
    | (.error err, parts) => (.error err, parts)
    | (.ok _, parts) => (slots.after, parts)

/-- An error leaves all parts as they were; otherwise each holds what was buffered for it. -/
def AllOrNothing (slots : CommitSlots κ ν) (writes : MojDbShardId → Option MojErr) (txn : MojDbEnvTxn κ ν) : Prop :=
  match (txn.commit slots writes).1 with
  | .error _ => contents (txn.commit slots writes).2 = contents txn.parts
  | .ok _ => ∃ txn', slots.before txn = .ok txn' ∧ contents (txn.commit slots writes).2 = mergedContents txn'.parts

/-! ## What a commit leaves -/

variable {writes : MojDbShardId → Option MojErr} {slots : CommitSlots κ ν} {txn : MojDbEnvTxn κ ν}

/-- The write of the part fails. -/
def Fails (writes : MojDbShardId → Option MojErr) : MojDbEnvTxn κ ν → TxnPart κ ν → Prop
  | .sandwich _ _, p => writes p.id ≠ none
  | .leveldb _, p => tableErr writes p ≠ none

instance (txn : MojDbEnvTxn κ ν) (p : TxnPart κ ν) : Decidable (txn.Fails writes p) := by
  unfold Fails
  cases txn with
  | sandwich => exact inferInstance
  | leveldb => exact inferInstance

theorem db_commit (p : TxnPart κ ν) :
    (p.commit writes).table.db = if writes p.id ≠ none then p.table.db else p.table.merged := by
  unfold TxnPart.commit
  cases writes p.id with
  | none => rfl
  | some err => rfl

theorem commitShards_eq (txn : List (TxnPart κ ν)) :
    (commitShards writes txn).1 = txn.map (fun p => if p.id = MainShardId then p else p.commit writes) ∧
      ((commitShards writes txn).2 = [] ↔ ∀ p ∈ txn, p.id ≠ MainShardId → writes p.id = none) := by
  induction txn with
  | nil => exact ⟨rfl, iff_of_true rfl fun _ h => nomatch h⟩
  | cons p txn ih =>
    rw [commitShards]
    dsimp only
    rw [List.map_cons, List.forall_mem_cons, ← ih.1, ← ih.2]
    by_cases hmain : p.id = MainShardId
    · simp [hmain]
    · cases hw : writes p.id with
      | none => simp [hmain]
      | some err => simp [hmain]

theorem contents_commitMain (txn : List (TxnPart κ ν)) :
    contents (commitMain writes (txn.map fun p => if p.id = MainShardId then p else p.commit writes)) =
      txn.map fun p => if writes p.id ≠ none then p.table.db else p.table.merged := by
  rw [contents, commitMain, List.map_map, List.map_map]
  refine List.map_congr_left fun p _ => ?_
  have hid : (p.commit writes).id = p.id := by
    unfold TxnPart.commit
    split_ifs <;> rfl
  by_cases hmain : p.id = MainShardId
  · simp only [Function.comp_apply, if_pos hmain, db_commit]
  · simp only [Function.comp_apply, if_neg hmain, hid, db_commit]

theorem commitTables_eq (tableTxns : List (TxnPart κ ν)) (accErr : Option MojErr) :
    contents (commitTables writes accErr tableTxns).1 =
        (tableTxns.map fun p => if tableErr writes p ≠ none then p.table.db else p.table.merged) ∧
      ((commitTables writes accErr tableTxns).2 = none ↔
        accErr = none ∧ ∀ p ∈ tableTxns, tableErr writes p = none) := by
  induction tableTxns generalizing accErr with
  | nil => exact ⟨rfl, by simp [commitTables]⟩
  | cons p tableTxns ih =>
    rw [commitTables]
    dsimp only
    cases herr : tableErr writes p with
    | none =>
      obtain ⟨hcontents, hnone⟩ := ih accErr
      constructor
      · simp only [contents, List.map_cons, herr, if_true] at hcontents ⊢
        rw [hcontents]
        rfl
      · simp only [if_true, List.forall_mem_cons, herr, true_and]
        exact hnone
    | some err =>
      obtain ⟨hcontents, hnone⟩ := ih (some err)
      constructor
      · simp only [contents, List.map_cons, herr] at hcontents ⊢
        rw [if_neg (by simp), if_neg (by simp), hcontents]
        rfl
      · simp only [reduceCtorEq, if_false, List.forall_mem_cons, herr, false_and, and_false]
        simpa using hnone

/-- Each part is written or not for itself, and the commit of the parts returns when all are. -/
theorem commitImpl_spec (txn : MojDbEnvTxn κ ν) :
    contents (txn.commitImpl writes).2 =
        (txn.parts.map fun p => if txn.Fails writes p then p.table.db else p.table.merged) ∧
      ((txn.commitImpl writes).1 = .ok () ↔ ∀ p ∈ txn.parts, ¬txn.Fails writes p) := by
  cases txn with
  | sandwich txn main_mem =>
    obtain ⟨hshards, hstatuses⟩ := @commitShards_eq _ _ _ writes txn
    have hcontents := @contents_commitMain _ _ _ writes txn
    rw [← hshards] at hcontents
    have hall : (∀ p ∈ txn, ¬writes p.id ≠ none) ↔ writes MainShardId = none ∧ (commitShards writes txn).2 = [] := by
      rw [hstatuses]
      constructor
      · intro h
        obtain ⟨p, hp, hid⟩ := main_mem
        exact ⟨hid ▸ not_not.mp (h p hp), fun q hq _ => not_not.mp (h q hq)⟩
      · intro h p hp
        by_cases hmain : p.id = MainShardId
        · rw [hmain]
          exact not_not.mpr h.1
        · exact not_not.mpr (h.2 p hp hmain)
    simp only [parts, Fails, hall, commitImpl]
    cases hmain : writes MainShardId with
    | some err => exact ⟨hcontents, by simp⟩
    | none =>
      cases hst : (commitShards writes txn).2 with
      | nil => exact ⟨hcontents, by simp⟩
      | cons err errs => exact ⟨hcontents, by simp⟩
  | leveldb tableTxns =>
    obtain ⟨hcontents, hnone⟩ := @commitTables_eq _ _ _ writes tableTxns none
    simp only [parts, Fails, commitImpl, not_not]
    cases hc : commitTables writes none tableTxns with
    | mk tables err =>
      rw [hc] at hcontents hnone
      cases err with
      | none => exact ⟨hcontents, iff_of_true rfl (hnone.mp rfl).2⟩
      | some err => exact ⟨hcontents, iff_of_false (by simp) fun h => by simpa using hnone.mpr ⟨rfl, h⟩⟩

theorem contents_buffer (txn : MojDbEnvTxn κ ν) (w : BufferedWrite κ ν) :
    contents (txn.buffer w).parts = contents txn.parts := by
  have hmap : ∀ ps : List (TxnPart κ ν), contents (ps.map (bufferPart w)) = contents ps := by
    intro ps
    rw [contents, contents, List.map_map]
    exact List.map_congr_left fun p _ => db_bufferPart w p
  cases txn with
  | sandwich txn main_mem => exact hmap txn
  | leveldb tableTxns => exact hmap tableTxns

theorem contents_foldl_buffer (txn : MojDbEnvTxn κ ν) (ws : List (BufferedWrite κ ν)) :
    contents (ws.foldl buffer txn).parts = contents txn.parts := by
  induction ws generalizing txn with
  | nil => rfl
  | cons w ws ih => rw [List.foldl_cons, ih, contents_buffer]

/-- What the slots before the writes do is buffered. -/
theorem contents_before {txn' : MojDbEnvTxn κ ν} (h : slots.before txn = .ok txn') :
    contents txn'.parts = contents txn.parts := by
  obtain ⟨ws, -, h⟩ := bind_eq_ok.mp h
  cases hquota : slots.quotaEngine with
  | none =>
    rw [hquota] at h
    rw [← pure_eq_ok.mp h]
    exact contents_foldl_buffer txn ws
  | some quota =>
    rw [hquota] at h
    obtain ⟨usage, -, h⟩ := bind_eq_ok.mp h
    rw [← pure_eq_ok.mp h, contents_foldl_buffer]
    exact contents_foldl_buffer txn ws

/-- The slots before the writes fail; or all is written and the slots after it succeed; or nothing that changes a part
is written. -/
def Whole (slots : CommitSlots κ ν) (writes : MojDbShardId → Option MojErr) (txn : MojDbEnvTxn κ ν) : Prop :=
  ∀ txn', slots.before txn = .ok txn' →
    (∀ p ∈ txn'.parts, ¬txn'.Fails writes p) ∧ slots.after = .ok () ∨
      ∀ p ∈ txn'.parts, ¬txn'.Fails writes p → p.table.merged = p.table.db

/-- **A commit is all or nothing** just when the slots before the writes fail, or nothing fails, or none of the parts
that the transaction changes is written. -/
theorem allOrNothing_iff (slots : CommitSlots κ ν) (writes : MojDbShardId → Option MojErr) (txn : MojDbEnvTxn κ ν) :
    AllOrNothing slots writes txn ↔ Whole slots writes txn := by
  unfold AllOrNothing Whole commit
  cases hbefore : slots.before txn with
  | error err => exact iff_of_true rfl fun _ h => nomatch h
  | ok txn' =>
    obtain ⟨hcontents, hok⟩ := @commitImpl_spec _ _ _ writes txn'
    -- nothing has changed when each part is as it was or not written
    have hsame : contents (txn'.commitImpl writes).2 = contents txn.parts ↔
        ∀ p ∈ txn'.parts, ¬txn'.Fails writes p → p.table.merged = p.table.db := by
      rw [hcontents, ← contents_before hbefore, contents, List.map_inj_left]
      refine forall₂_congr fun p _ => ?_
      split_ifs with hfails
      · exact iff_of_true rfl fun hnot => absurd hfails hnot
      · exact ⟨fun he _ => he, fun h => h hfails⟩
    simp only [Except.ok.injEq, forall_eq']
    cases himpl : txn'.commitImpl writes with
    | mk result parts =>
      rw [himpl] at hcontents hok hsame
      cases result with
      | error err =>
        have hnot : ¬∀ p ∈ txn'.parts, ¬txn'.Fails writes p := fun h => nomatch hok.mpr h
        dsimp only
        rw [hsame]
        exact ⟨.inr, fun h => h.resolve_left fun hall => hnot hall.1⟩
      | ok u =>
        have hall := hok.mp rfl
        dsimp only
        cases hafter : slots.after with
        | error err =>
          dsimp only
          rw [hsame]
          exact ⟨.inr, fun h => h.resolve_left fun hpost => nomatch hpost.2⟩
        | ok _ =>
          refine iff_of_true ⟨txn', rfl, ?_⟩ (.inl ⟨hall, rfl⟩)
          rw [hcontents, mergedContents]
          exact List.map_congr_left fun p hp => if_neg (hall p hp)

/-! ### Two shards, and a slot after the writes -/

/-- A put in the main shard and one in another. -/
def twoShards : MojDbEnvTxn Nat Nat :=
  .sandwich [⟨1, (MojDbLevelTableTxn.begin .empty).put 5 5⟩, ⟨MainShardId, (MojDbLevelTableTxn.begin .empty).put 6 6⟩]
    ⟨_, List.mem_cons_of_mem _ List.mem_cons_self, rfl⟩

def noSlots (postCommit : Except MojErr Unit) : CommitSlots Nat Nat := ⟨.ok [], none, postCommit, []⟩

/-- The write of the main shard fails after that of the other one. Or both succeed, and then a slot fails. -/
theorem not_allOrNothing_twoShards :
    ¬AllOrNothing (noSlots (.ok ())) (fun id => if id = MainShardId then some .dbIo else none) twoShards ∧
    ¬AllOrNothing (noSlots (.error .notFound)) (fun _ => none) twoShards := by
  constructor
  · intro h
    have hsame : contents (twoShards.commit (noSlots (.ok ()))
        fun id => if id = MainShardId then some .dbIo else none).2 = contents twoShards.parts := h
    exact absurd hsame (by decide)
  · intro h
    have hsame : contents (twoShards.commit (noSlots (.error .notFound)) fun _ => none).2 = contents twoShards.parts := h
    exact absurd hsame (by decide)

end MojDbEnvTxn

end Db8
