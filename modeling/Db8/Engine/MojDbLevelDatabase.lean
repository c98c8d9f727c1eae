import Db8.Core.MojErr
import Db8.Db.MojDbKey
import Db8.Engine.MojDbLevelTxnCursor

/-!
# Engine.MojDbLevelDatabase

The operations of `MojDbLevelDatabase` and of its cursors, in one transaction after the other, and the finite map with an
overlay that they are measured against.

* `TxnOp`, `DbOp`  — the operations of a transaction, and those of the database around it.
* `MojDbLevelEnvTxn` — what the code does, with any number of open cursors.
* `MapTxn`         — the overlay: a map that begins as the committed one, and positions in it.
* `Txns.exec`      — successive transactions, each committed or aborted, over either of them.
-/

namespace Db8

open Lib

abbrev LevelVal := List MojByte

/-- The operations of a transaction; cursors have names. `oldSize` is that of the old value that the caller of `update` has. -/
inductive TxnOp where
  | insert (id : MojDbKey) (val : LevelVal)
  | update (id : MojDbKey) (val : LevelVal) (oldSize : Nat)
  | get (key : MojDbKey)
  | del (key : MojDbKey)
  | openCursor (name : Nat)
  | closeCursor (name : Nat)
  | cursorGet (name : Nat) (flags : LevelMove MojDbKey)
  | cursorDel (name : Nat)
  | delPrefix (name : Nat) (pre : MojDbKey)

inductive TxnResult where
  | done
  | error (e : MojErr)
  | value (val : Option LevelVal)
  | found (found : Bool)
  | entry (entry : Option (MojDbKey × LevelVal))
  | notOpen
  deriving DecidableEq

namespace TxnResult

def ofExcept : Except MojErr Unit → TxnResult
  | .ok _ => .done
  | .error e => .error e

end TxnResult

/-! ## The code -/

/-- A transaction on the table with its open iterators. The quota of the transaction is code of its own. -/
structure MojDbLevelEnvTxn (Q : Type*) where
  tableTxn : MojDbLevelTableTxn MojDbKey LevelVal
  iterators : Nat → Option (MojDbLevelTxnIterator MojDbKey)
  quota : Q

namespace MojDbLevelTxnIterator

variable {κ ν : Type*} [LinearOrder κ]

def getKey (it : MojDbLevelTxnIterator κ) : Option κ :=
  match it.current with
  | .key key => some key
  | _ => none

def keyStartsWith (it : MojDbLevelTxnIterator MojDbKey) (pre : MojDbKey) : Bool :=
  match it.getKey with
  | some key => pre.isPrefixOf key
  | none => false

end MojDbLevelTxnIterator

namespace MojDbLevelEnvTxn

variable {Q : Type*} (offsetQuota : Q → Int → Except MojErr Q)

def begin (db : SortedMap MojDbKey LevelVal) (quota : Q) : MojDbLevelEnvTxn Q := ⟨.begin db, fun _ => none, quota⟩

variable (t : MojDbLevelEnvTxn Q)

/-- `MojDbLevelTableTxn::Put` -/
def tablePut (key : MojDbKey) (val : LevelVal) : MojDbLevelEnvTxn Q where
  tableTxn := t.tableTxn.put key val
  iterators name := (t.iterators name).map (·.notifyPut (t.tableTxn.put key val) key)
  quota := t.quota

/-- `MojDbLevelTableTxn::Delete` -/
def tableDelete (key : MojDbKey) : MojDbLevelEnvTxn Q where
  tableTxn := t.tableTxn.del key
  iterators name := (t.iterators name).map (·.notifyDelete t.tableTxn key)
  quota := t.quota

def put (key : MojDbKey) (val : LevelVal) (updateIdQuota : Bool) : TxnResult × MojDbLevelEnvTxn Q :=
  match offsetQuota t.quota (val.length + if updateIdQuota then key.length else 0) with
  | .error e => (.error e, t)
  | .ok quota => (.done, { t with quota }.tablePut key val)

/-- The old value is refunded before the new one is charged. -/
def update (id : MojDbKey) (val : LevelVal) (oldSize : Nat) : TxnResult × MojDbLevelEnvTxn Q :=
  match offsetQuota t.quota (-oldSize) with
  | .error e => (.error e, t)
  | .ok quota => { t with quota }.put offsetQuota id val false

/-- The status is that of the store, which is asked only without a transaction: `foundOut` is always set. -/
def del (key : MojDbKey) : TxnResult × MojDbLevelEnvTxn Q :=
  match offsetQuota t.quota (-key.length) with
  | .error e => (.error e, t)
  | .ok quota => (.found true, { t with quota }.tableDelete key)

def setIterator (name : Nat) (it : Option (MojDbLevelTxnIterator MojDbKey)) : MojDbLevelEnvTxn Q :=
  { t with iterators := Function.update t.iterators name it }

def cursorGet (name : Nat) (flags : LevelMove MojDbKey) : TxnResult × MojDbLevelEnvTxn Q :=
  match t.iterators name with
  | none => (.notOpen, t)
  | some it =>
    let cursor := LevelCursor.move flags ⟨t.tableTxn, it⟩
    (.entry cursor.read, t.setIterator name (some cursor.it))

def recSize (it : MojDbLevelTxnIterator MojDbKey) : Nat :=
  match it.read t.tableTxn with
  | none => 0
  | some (key, val) => key.length + val.length

/-- `MojDbLevelCursor::del`; the entry is gone also when the quota refuses. -/
def cursorDel (name : Nat) : Except MojErr Unit × MojDbLevelEnvTxn Q :=
  match t.iterators name with
  | none => (.ok (), t)
  | some it =>
    match it.getKey with
    | none => (.ok (), t)
    | some key =>
      let delSize := t.recSize it
      let t := t.tableDelete key
      match offsetQuota t.quota (-delSize) with
      | .error e => (.error e, t)
      | .ok quota => (.ok (), { t with quota })

def nextIterator (name : Nat) : MojDbLevelEnvTxn Q :=
  t.setIterator name ((t.iterators name).map (·.next t.tableTxn))

/-- The loop of `MojDbLevelCursor::delPrefix`. -/
def delPrefixLoop (name : Nat) (pre : MojDbKey) : Nat → MojDbLevelEnvTxn Q → Except MojErr Unit × MojDbLevelEnvTxn Q
  | 0, t => (.ok (), t)
  | fuel + 1, t =>
    match t.iterators name with
    | none => (.ok (), t)
    | some it =>
      if it.isValid && it.keyStartsWith pre then
        match t.cursorDel offsetQuota name with
        | (.error e, t) => (.error e, t)
        | (.ok _, t) => delPrefixLoop name pre fuel (t.nextIterator name)
      else (.ok (), t)

/-- Each round of the loop deletes an entry. -/
def delPrefix (name : Nat) (pre : MojDbKey) : Except MojErr Unit × MojDbLevelEnvTxn Q :=
  delPrefixLoop offsetQuota name pre (t.tableTxn.merged.entries.length + 1)
    (t.setIterator name ((t.iterators name).map fun _ => .seek t.tableTxn pre))

def exec : TxnOp → TxnResult × MojDbLevelEnvTxn Q
  | .insert id val => t.put offsetQuota id val true
  | .update id val oldSize => t.update offsetQuota id val oldSize
  | .get key => (.value (t.tableTxn.get key), t)
  | .del key => t.del offsetQuota key
  | .openCursor name => (.done, t.setIterator name (some (.first t.tableTxn)))
  | .closeCursor name => (.done, t.setIterator name none)
  | .cursorGet name flags => t.cursorGet name flags
  | .cursorDel name =>
    match t.iterators name with
    | none => (.notOpen, t)
    | some _ => (t.cursorDel offsetQuota name).map .ofExcept id
  | .delPrefix name pre =>
    match t.iterators name with
    | none => (.notOpen, t)
    | some _ => (t.delPrefix offsetQuota name pre).map .ofExcept id

end MojDbLevelEnvTxn

/-! ## The map -/

/-- A map with positions of cursors in it. -/
structure MapTxn (Q : Type*) where
  map : SortedMap MojDbKey LevelVal
  cursors : Nat → Option (CursorPos MojDbKey)
  quota : Q

namespace MapTxn

variable {Q : Type*} (offsetQuota : Q → Int → Except MojErr Q)

def begin (db : SortedMap MojDbKey LevelVal) (quota : Q) : MapTxn Q := ⟨db, fun _ => none, quota⟩

variable (t : MapTxn Q)

def put (key : MojDbKey) (val : LevelVal) (size : Nat) : TxnResult × MapTxn Q :=
  match offsetQuota t.quota size with
  | .error e => (.error e, t)
  | .ok quota => (.done, { t with map := t.map.insert key val, quota })

def update (key : MojDbKey) (val : LevelVal) (oldSize : Nat) : TxnResult × MapTxn Q :=
  match offsetQuota t.quota (-oldSize) with
  | .error e => (.error e, t)
  | .ok quota => { t with quota }.put offsetQuota key val val.length

def del (key : MojDbKey) : TxnResult × MapTxn Q :=
  match offsetQuota t.quota (-key.length) with
  | .error e => (.error e, t)
  | .ok quota => (.found (t.map.find key).isSome, { t with map := t.map.erase key, quota })

def setCursor (name : Nat) (pos : Option (CursorPos MojDbKey)) : MapTxn Q :=
  { t with cursors := Function.update t.cursors name pos }

/-- The entries are removed one by one, with what they weigh, up to one that the quota refuses. -/
def delEntries : List (MojDbKey × LevelVal) → MapTxn Q → Option (MojErr × MojDbKey) × MapTxn Q
  | [], t => (none, t)
  | (key, val) :: entries, t =>
    let t := { t with map := t.map.erase key }
    match offsetQuota t.quota (-(key.length + val.length : Nat)) with
    | .error e => (some (e, key), t)
    | .ok quota => delEntries entries { t with quota }

/-- A cursor is left on the entry that was refused, or behind the entries with the prefix. -/
def delPrefix (name : Nat) (pre : MojDbKey) : TxnResult × MapTxn Q :=
  match delEntries offsetQuota (t.map.entries.filter fun e => pre.isPrefixOf e.1) t with
  | (some (e, key), t) => (.error e, t.setCursor name (some (.key key)))
  | (none, t) => (.done, t.setCursor name (some (t.map.keys.atOrAfter true (.key pre))))

def exec : TxnOp → TxnResult × MapTxn Q
  | .insert id val => t.put offsetQuota id val (val.length + id.length)
  | .update id val oldSize => t.update offsetQuota id val oldSize
  | .get key => (.value (t.map.find key), t)
  | .del key => t.del offsetQuota key
  | .openCursor name => (.done, t.setCursor name (some (t.map.keys.toEdge true)))
  | .closeCursor name => (.done, t.setCursor name none)
  | .cursorGet name flags =>
    match t.cursors name with
    | none => (.notOpen, t)
    | some pos =>
      let cursor := mergedMove flags ⟨t.map, pos⟩
      (.entry cursor.read, t.setCursor name (some cursor.pos))
  | .cursorDel name =>
    match t.cursors name with
    | none => (.notOpen, t)
    | some pos =>
      match MapCursor.read ⟨t.map, pos⟩ with
      | none => (.done, t)
      | some entry =>
        match delEntries offsetQuota [entry] t with
        | (some (e, _), t) => (.error e, t)
        | (none, t) => (.done, t)
  | .delPrefix name pre =>
    match t.cursors name with
    | none => (.notOpen, t)
    | some _ => t.delPrefix offsetQuota name pre

end MapTxn

/-! ## Successive transactions -/

/-- How transactions of a kind begin, work and are committed. -/
structure TxnEngine (Q T : Type*) where
  begin : SortedMap MojDbKey LevelVal → Q → T
  exec : T → TxnOp → TxnResult × T
  commit : T → SortedMap MojDbKey LevelVal

inductive DbOp (Q : Type*) where
  | beginTxn (quota : Q)
  | txn (op : TxnOp)
  | commit
  | abort

/-- The committed content, and the transaction that is open. -/
structure Txns (T : Type*) where
  db : SortedMap MojDbKey LevelVal
  txn : Option T

namespace Txns

variable {Q T : Type*} (engine : TxnEngine Q T)

def exec (s : Txns T) : DbOp Q → TxnResult × Txns T
  | .beginTxn quota =>
    match s.txn with
    | none => (.done, { s with txn := some (engine.begin s.db quota) })
    | some _ => (.notOpen, s)
  | .txn op =>
    match s.txn with
    | none => (.notOpen, s)
    | some t =>
      let (result, t) := engine.exec t op
      (result, { s with txn := some t })
  | .commit =>
    match s.txn with
    | none => (.notOpen, s)
    | some t => (.done, ⟨engine.commit t, none⟩)
  | .abort =>
    match s.txn with
    | none => (.notOpen, s)
    | some _ => (.done, { s with txn := none })

end Txns

/-- The database of the code. -/
def levelEngine {Q : Type*} (offsetQuota : Q → Int → Except MojErr Q) : TxnEngine Q (MojDbLevelEnvTxn Q) where
  begin := .begin
  exec := MojDbLevelEnvTxn.exec offsetQuota
  commit t := t.tableTxn.commitImpl

/-- The finite map with an overlay for each transaction. -/
def mapEngine {Q : Type*} (offsetQuota : Q → Int → Except MojErr Q) : TxnEngine Q (MapTxn Q) where
  begin := .begin
  exec := MapTxn.exec offsetQuota
  commit := MapTxn.map

end Db8
