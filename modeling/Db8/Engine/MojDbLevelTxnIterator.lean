import Db8.Engine.MojDbLevelTxn
import Db8.Lib.CursorPos

/-!
# Engine.MojDbLevelTxnIterator

The iterator over a table inside a transaction: one cursor over the database and one over the pending
values, which `Put` and `Delete` notify of every change.

* `skipDeleted`, `advanceDb`, `advanceInserts` — the steps of the two underlying iterators.
* `notifyPut`, `notifyDelete`, `move`, `toFirst`, `seek` — the operations of the iterator.
* `read`                — what a cursor gets from it.
-/

namespace Db8

open Lib
open Lib.Toward (on finish)

variable {κ ν : Type*} [LinearOrder κ]

/-- `m_it` and `m_insertsItertor` of the source are `dbPos` and `insertsPos`. -/
structure MojDbLevelTxnIterator (κ : Type*) where
  fwd : Bool
  invalid : Bool
  dbPos : CursorPos κ
  insertsPos : CursorPos κ
  deriving DecidableEq

namespace MojDbLevelTxnIterator

variable (txn : MojDbLevelTableTxn κ ν) (it : MojDbLevelTxnIterator κ)

def inTransaction : Bool :=
  match cmp it.dbPos it.insertsPos with
  | .lt => !it.fwd
  | .gt => it.fwd
  | .eq => true

/-- The position `getKey` reads the key of. -/
def current : CursorPos κ := if it.inTransaction then it.insertsPos else it.dbPos

def getValue (key : κ) : Option ν :=
  if it.inTransaction then txn.pendingValues.find key else txn.db.find key

def isBegin : Bool := it.dbPos = .beforeFirst && it.insertsPos = .beforeFirst

def isEnd : Bool := it.dbPos = .afterLast && it.insertsPos = .afterLast

def isKey : CursorPos κ → Bool
  | .key _ => true
  | _ => false

def isValid : Bool := !it.invalid && (isKey it.dbPos || isKey it.insertsPos)

/-- The key and the value a cursor gets, if the iterator is valid. -/
def read : Option (κ × ν) :=
  if it.isValid then
    match it.current with
    | .key key => (it.getValue txn key).map fun val => (key, val)
    | _ => none
  else none

/-! ## Moving -/

/-- The loop passes the deleted keys from the position on; `++` of the underlying iterators in a forward and
`--` in a backward direction are `after`. -/
def skipDeleted (fwd : Bool) (p : CursorPos κ) : CursorPos κ :=
  if p = finish fwd then p
  else txn.db.keys.firstWith fwd fun k => on fwd p ≤ on fwd (.key k) ∧ !txn.isDeleted k

def advanceDb : MojDbLevelTxnIterator κ :=
  { it with dbPos := skipDeleted txn it.fwd (txn.db.keys.after it.fwd it.dbPos) }

def advanceInserts : MojDbLevelTxnIterator κ :=
  { it with insertsPos := txn.pendingValues.keys.after it.fwd it.insertsPos }

/-- `first` forward, `last` backward. -/
def toEdge (fwd : Bool) : MojDbLevelTxnIterator κ where
  fwd := fwd
  invalid := false
  dbPos := skipDeleted txn fwd (txn.db.keys.toEdge fwd)
  insertsPos := txn.pendingValues.keys.toEdge fwd

def first : MojDbLevelTxnIterator κ := toEdge txn true

def last : MojDbLevelTxnIterator κ := toEdge txn false

/-- The common end of `next` and `prev`. -/
def advance : MojDbLevelTxnIterator κ :=
  if it.insertsPos = finish it.fwd then it.advanceDb txn
  else if it.dbPos = finish it.fwd then it.advanceInserts txn
  else if on it.fwd it.dbPos < on it.fwd it.insertsPos then it.advanceDb txn
  else if it.dbPos = it.insertsPos then (it.advanceInserts txn).advanceDb txn
  else it.advanceInserts txn

/-- A change of direction. The cursor that ran out comes back from the tail; otherwise the one that is
ahead of the current key does. -/
def turn : MojDbLevelTxnIterator κ :=
  let it' := { it with fwd := !it.fwd, invalid := false }
  if it.dbPos = finish it.fwd then it'.advanceDb txn
  else if it.insertsPos = finish it.fwd then it'.advanceInserts txn
  else if on it'.fwd it'.current < on it'.fwd it.current then it'.advance txn
  else it'

/-- `next` forward, `prev` backward. -/
def move (fwd : Bool) : MojDbLevelTxnIterator κ :=
  if it.dbPos = finish (!fwd) ∧ it.insertsPos = finish (!fwd) then toEdge txn fwd
  else if it.fwd ≠ fwd then (it.turn txn).advance txn
  else if it.invalid then { it with invalid := false }
  else it.advance txn

def next : MojDbLevelTxnIterator κ := it.move txn true

def prev : MojDbLevelTxnIterator κ := it.move txn false

def seek (key : κ) : MojDbLevelTxnIterator κ where
  fwd := true
  invalid := false
  dbPos := skipDeleted txn true (txn.db.keys.atOrAfter true (.key key))
  insertsPos := txn.pendingValues.keys.atOrAfter true (.key key)

/-! ## Notifications -/

/-- Called after the value has become pending. -/
def notifyPut (key : κ) : MojDbLevelTxnIterator κ :=
  let keyLtDb := CursorPos.key key < it.dbPos
  let keyEqDb := CursorPos.key key = it.dbPos
  let keyLtTxn := CursorPos.key key < it.insertsPos
  let keyEqTxn := CursorPos.key key = it.insertsPos
  if it.fwd then
    if keyLtDb ∨ ¬keyLtTxn then it
    else { it with insertsPos := txn.pendingValues.keys.after false it.insertsPos }
  else
    if keyLtTxn ∨ keyEqTxn ∨ (¬keyLtDb ∧ ¬keyEqDb) then it
    else { it with insertsPos := txn.pendingValues.keys.after true it.insertsPos }

/-- Called before the value goes. -/
def notifyDelete (key : κ) : MojDbLevelTxnIterator κ :=
  if it.insertsPos ≠ .key key then it
  else if it.dbPos = it.insertsPos then { (it.advanceDb txn).advanceInserts txn with invalid := true }
  else { it.advanceInserts txn with invalid := true }

end MojDbLevelTxnIterator

end Db8
