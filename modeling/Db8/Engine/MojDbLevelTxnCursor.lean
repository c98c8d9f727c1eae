import Db8.Engine.MojDbLevelTxnIteratorSpec
import Db8.Lib.Run

/-!
# Engine.MojDbLevelTxnCursor

Runs of a transaction with an open iterator, against a cursor over the merged content.

* `LevelOp`, `LevelCursor` — the operations, and what they do to the transaction and its iterator.
* `CursorRun`           — the run of both, with the condition `Clear` on a step.
* `reads_of_run`        — moves read what is in the merged content, and a run in one direction visits
  each of its entries beyond the position once.
-/

namespace Db8

open Lib
open Lib.Toward (on finish keysAt)
open MojDbLevelTxnIterator (Follows Stands TurnClear PutClear DelClear allKeys)

variable {κ ν : Type*} [LinearOrder κ]

inductive LevelMove (κ : Type*) where
  | first
  | last
  | seek (key : κ)
  | next
  | prev

inductive LevelOp (κ ν : Type*) where
  | put (key : κ) (val : ν)
  | del (key : κ)
  | move (m : LevelMove κ)

/-- A transaction with an open iterator, which it notifies of its writes. -/
structure LevelCursor (κ ν : Type*) [LinearOrder κ] where
  txn : MojDbLevelTableTxn κ ν
  it : MojDbLevelTxnIterator κ

namespace LevelCursor

def createIterator (txn : MojDbLevelTableTxn κ ν) : LevelCursor κ ν := ⟨txn, .first txn⟩

def move (m : LevelMove κ) (s : LevelCursor κ ν) : LevelCursor κ ν :=
  { s with
    it :=
      match m with
      | .first => .first s.txn
      | .last => .last s.txn
      | .seek key => .seek s.txn key
      | .next => s.it.next s.txn
      | .prev => s.it.prev s.txn }

def step (s : LevelCursor κ ν) : LevelOp κ ν → LevelCursor κ ν
  | .put key val => { txn := s.txn.put key val, it := s.it.notifyPut (s.txn.put key val) key }
  | .del key => { txn := s.txn.del key, it := s.it.notifyDelete s.txn key }
  | .move m => s.move m

def read (s : LevelCursor κ ν) : Option (κ × ν) := s.it.read s.txn

end LevelCursor

/-- The same operations on the merged content. -/
def mergedMove (m : LevelMove κ) (s : MapCursor κ ν) : MapCursor κ ν :=
  match m with
  | .first => s.toEdge true
  | .last => s.toEdge false
  | .seek key => s.seek key
  | .next => s.move true
  | .prev => s.move false

def mergedStep (s : MapCursor κ ν) : LevelOp κ ν → MapCursor κ ν
  | .put key val => { s with map := s.map.insert key val }
  | .del key => { s with map := s.map.erase key }
  | .move m => mergedMove m s

/-- Both, side by side. -/
structure CursorRun (κ ν : Type*) [LinearOrder κ] where
  level : LevelCursor κ ν
  merged : MapCursor κ ν

namespace CursorRun

def createIterator (txn : MojDbLevelTableTxn κ ν) : CursorRun κ ν where
  level := .createIterator txn
  merged := MapCursor.toEdge true ⟨txn.merged, .beforeFirst⟩

def step (s : CursorRun κ ν) (op : LevelOp κ ν) : CursorRun κ ν where
  level := s.level.step op
  merged := mergedStep s.merged op

/-- The steps the iterator can follow. -/
def Clear (s : CursorRun κ ν) : LevelOp κ ν → Prop
  | .put key _ => PutClear s.level.it s.merged.pos key
  | .del key => DelClear s.level.it key
  | .move .next => s.level.it.fwd = false → TurnClear s.level.txn s.level.it
  | .move .prev => s.level.it.fwd = true → TurnClear s.level.txn s.level.it
  | .move _ => True

instance (s : CursorRun κ ν) : (op : LevelOp κ ν) → Decidable (s.Clear op)
  | .put key _ => inferInstanceAs (Decidable (PutClear s.level.it s.merged.pos key))
  | .del key => inferInstanceAs (Decidable (DelClear s.level.it key))
  | .move .next => inferInstanceAs (Decidable (_ → TurnClear s.level.txn s.level.it))
  | .move .prev => inferInstanceAs (Decidable (_ → TurnClear s.level.txn s.level.it))
  | .move .first | .move .last | .move (.seek _) => instDecidableTrue

structure Ok (s : CursorRun κ ν) : Prop where
  map : s.merged.map = s.level.txn.merged
  follows : Follows s.level.txn s.level.it.fwd s.level.it s.merged.pos

/-- After a move the iterator stands where the cursor over the merged content does. -/
structure Moved (s : CursorRun κ ν) : Prop where
  map : s.merged.map = s.level.txn.merged
  stands : ∃ fwd, Stands s.level.txn fwd s.level.it s.merged.pos ∧
    (on fwd s.merged.pos = ⊤ ∨ on fwd s.merged.pos ∈ keysAt fwd (allKeys s.level.txn))

theorem Moved.ok {s : CursorRun κ ν} (h : s.Moved) : s.Ok := by
  obtain ⟨hmap, fwd, hstands, _⟩ := h
  have hfwd := hstands.fwd_eq
  subst hfwd
  exact ⟨hmap, hstands.follows⟩

theorem Moved.read {s : CursorRun κ ν} (h : s.Moved) : s.level.read = s.merged.read := by
  obtain ⟨hmap, fwd, hstands, hpos⟩ := h
  rw [LevelCursor.read, MojDbLevelTxnIterator.read_stands _ hstands hpos, ← hmap]

theorem keys_merged {s : CursorRun κ ν} (hmap : s.merged.map = s.level.txn.merged) :
    {k | k ∈ s.merged.map.keys} = allKeys s.level.txn := by
  ext k
  change k ∈ s.merged.map.keys ↔ _
  rw [hmap]
  exact s.level.txn.mem_merged

theorem mem_of_isLeast {fwd : Bool} {S : Set (Toward fwd κ)} {c : Toward fwd κ → Prop} {q : Toward fwd κ}
    (h : IsLeast (insert ⊤ {x ∈ S | c x}) q) : q = ⊤ ∨ q ∈ S := h.1.imp id And.left

theorem moved_toEdge {s : CursorRun κ ν} (hmap : s.merged.map = s.level.txn.merged) (fwd : Bool) :
    (⟨⟨s.level.txn, .toEdge s.level.txn fwd⟩, s.merged.toEdge fwd⟩ : CursorRun κ ν).Moved := by
  have hleast := s.merged.map.keys.toEdge_isLeast fwd
  rw [keys_merged hmap] at hleast
  exact ⟨hmap, fwd, MojDbLevelTxnIterator.toEdge_stands _ hleast, mem_of_isLeast hleast⟩

theorem stands_move {s : CursorRun κ ν} (h : s.Ok) (fwd : Bool)
    (hclear : s.level.it.fwd ≠ fwd → TurnClear s.level.txn s.level.it) :
    Stands s.level.txn fwd (s.level.it.move s.level.txn fwd) (s.merged.move fwd).pos ∧
      (on fwd (s.merged.move fwd).pos = ⊤ ∨ on fwd (s.merged.move fwd).pos ∈ keysAt fwd (allKeys s.level.txn)) := by
  have hnext := s.merged.map.keys.after_isNext fwd s.merged.pos
  rw [keys_merged h.map] at hnext
  exact ⟨MojDbLevelTxnIterator.move_stands _ h.follows hclear hnext, hnext.mem⟩

theorem moved_move {s : CursorRun κ ν} (h : s.Ok) (fwd : Bool)
    (hclear : s.level.it.fwd ≠ fwd → TurnClear s.level.txn s.level.it) :
    (⟨⟨s.level.txn, s.level.it.move s.level.txn fwd⟩, s.merged.move fwd⟩ : CursorRun κ ν).Moved :=
  ⟨h.map, fwd, stands_move h fwd hclear⟩

theorem moved_of_move {s : CursorRun κ ν} (h : s.Ok) {m : LevelMove κ} (hclear : s.Clear (.move m)) :
    (s.step (.move m)).Moved := by
  cases m with
  | first => exact moved_toEdge h.map true
  | last => exact moved_toEdge h.map false
  | seek key =>
    have hleast := s.merged.map.keys.atOrAfter_isLeast true (.key key)
    rw [keys_merged h.map] at hleast
    exact ⟨h.map, true, MojDbLevelTxnIterator.seek_stands _ hleast, mem_of_isLeast hleast⟩
  | next => exact moved_move h true fun hfwd => hclear (Bool.eq_false_of_not_eq_true hfwd)
  | prev => exact moved_move h false fun hfwd => hclear (Bool.of_not_eq_false hfwd)

/-- **Steps.** -/
theorem ok_step (s : CursorRun κ ν) (op : LevelOp κ ν) (h : s.Ok) (hclear : s.Clear op) : (s.step op).Ok := by
  cases op with
  | put key val =>
    have hfollows := MojDbLevelTxnIterator.follows_put _ h.follows key val hclear
    have hfwd := hfollows.fwd_eq
    refine ⟨?_, ?_⟩
    · change s.merged.map.insert key val = (s.level.txn.put key val).merged
      rw [MojDbLevelTableTxn.merged_put, h.map]
    · change Follows _ (s.level.it.notifyPut (s.level.txn.put key val) key).fwd _ _
      rw [hfwd]
      exact hfollows
  | del key =>
    have hfollows := MojDbLevelTxnIterator.follows_del _ h.follows key hclear
    have hfwd := hfollows.fwd_eq
    refine ⟨?_, ?_⟩
    · change s.merged.map.erase key = (s.level.txn.del key).merged
      rw [MojDbLevelTableTxn.merged_del, h.map]
    · change Follows _ (s.level.it.notifyDelete s.level.txn key).fwd _ _
      rw [hfwd]
      exact hfollows
  | move m => exact (moved_of_move h hclear).ok

theorem ok_createIterator (txn : MojDbLevelTableTxn κ ν) : (createIterator txn).Ok :=
  (moved_toEdge (s := ⟨⟨txn, .first txn⟩, ⟨txn.merged, .beforeFirst⟩⟩) rfl true).ok

/-! ## Runs in one direction -/

def dirMove : Bool → LevelMove κ
  | true => .next
  | false => .prev

theorem step_dirMove (s : CursorRun κ ν) (fwd : Bool) :
    s.step (.move (dirMove fwd)) = ⟨⟨s.level.txn, s.level.it.move s.level.txn fwd⟩, s.merged.move fwd⟩ := by
  cases fwd <;> rfl

theorem clear_dirMove {s : CursorRun κ ν} {fwd : Bool} :
    s.Clear (.move (dirMove fwd)) ↔ (s.level.it.fwd ≠ fwd → TurnClear s.level.txn s.level.it) := by
  cases fwd <;> simp [Clear, dirMove]

/-- Once a run has turned, it goes on without a condition. -/
theorem clear_step_dirMove {s : CursorRun κ ν} (h : s.Ok) {fwd : Bool}
    (hclear : s.Clear (.move (dirMove fwd))) : (s.step (.move (dirMove fwd))).Clear (.move (dirMove fwd)) := by
  rw [clear_dirMove] at hclear ⊢
  rw [step_dirMove]
  exact fun hne => absurd (stands_move h fwd hclear).1.fwd_eq hne

/-- **One direction.** A run of the iterator in one direction reads what a run over the merged content does. -/
theorem visits_level {s : CursorRun κ ν} (h : s.Ok) {fwd : Bool} (hclear : s.Clear (.move (dirMove fwd)))
    (n : Nat) :
    visits (LevelCursor.move (dirMove fwd)) LevelCursor.read n s.level =
      visits (MapCursor.move fwd) MapCursor.read n s.merged := by
  induction n generalizing s with
  | zero => rfl
  | succ n ih =>
    have hmoved := moved_of_move h hclear
    have hlevel : s.level.move (dirMove fwd) = (s.step (.move (dirMove fwd))).level := rfl
    have hmerged : s.merged.move fwd = (s.step (.move (dirMove fwd))).merged := by
      rw [step_dirMove]
    rw [visits, visits, hlevel, hmerged, hmoved.read, ih hmoved.ok (clear_step_dirMove h hclear)]

/-- **A transaction reads the merged content.** In a run whose steps are all clear, the iterator moves as a
cursor over the merged content does and reads the same there, and from every state of the run it visits
the entries beyond its position once, in order. -/
theorem reads_of_run (txn : MojDbLevelTableTxn κ ν) (ops : List (LevelOp κ ν))
    (h : Along step Clear (createIterator txn) ops) {pre : List (LevelOp κ ν)} (hpre : pre <+: ops) :
    let s := run step (createIterator txn) pre
    s.merged.map = s.level.txn.merged ∧
    (∀ m, pre ++ [.move m] <+: ops → (s.step (.move m)).level.read = (s.step (.move m)).merged.read) ∧
    ∀ fwd, s.Clear (.move (dirMove fwd)) → ∀ n, (s.merged.beyond fwd).length < n →
      visits (LevelCursor.move (dirMove fwd)) LevelCursor.read n s.level = s.merged.beyond fwd := by
  intro s
  have hs : s.Ok := (h.of_isPrefix hpre).invariant Ok ok_step (ok_createIterator txn)
  refine ⟨hs.map, fun m hm => (moved_of_move hs (h.of_isPrefix hm).last).read, fun fwd hclear n hn => ?_⟩
  rw [visits_level hs hclear, MapCursor.visits_eq fwd hn]

/-- The content of a table with the given numbers as keys and values. -/
def table (ks : List Nat) : SortedMap Nat Nat := ks.foldl (fun m k => m.insert k k) .empty

theorem reads_after_del :
    let s := run step (createIterator (.begin (table [1, 3]))) [.put 2 20, .move .next, .del 2]
    (s.step (.move .next)).level.read = (s.step (.move .next)).merged.read :=
  (reads_of_run (.begin (table [1, 3])) [.put 2 20, .move .next, .del 2, .move .next]
    ⟨by decide, by decide, by decide, by decide, trivial⟩ ⟨[.move .next], rfl⟩).2.1 .next ⟨[], rfl⟩

/-- What the iterator reads after the operations, and what is there in the merged content. -/
def readsAfter (ks : List Nat) (ops : List (LevelOp Nat Nat)) : Option (Nat × Nat) × Option (Nat × Nat) :=
  let s := run step (createIterator (.begin (table ks))) ops
  (s.level.read, s.merged.read)

/-- A deleted key is visited, a pending one is passed over, and two keys are visited twice. -/
theorem not_merged_after_writes :
    readsAfter [5] [.put 3 3, .move .first, .del 5, .move .next] = (some (5, 5), none) ∧
    readsAfter [7] [.put 3 3, .move .first, .del 3, .put 5 5, .move .next] = (some (7, 7), some (5, 5)) ∧
    readsAfter [3] [.put 5 5, .move .first, .del 5, .move .next] = (some (3, 3), none) ∧
    readsAfter [3, 5, 7] [.del 5, .put 4 4, .move (.seek 4), .put 5 5, .move .prev] =
      (some (4, 4), some (3, 3)) := by
  decide

end CursorRun

end Db8
