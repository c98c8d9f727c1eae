import Db8.Lib.CursorPos
import Db8.Lib.SortedMap

/-!
# Lib.MapCursor

A position in a sorted map, and the runs over the map from it.

* `move`, `toEdge`, `seek` — the moves of the position.
* `read`                  — the entry at the position.
* `visits_eq`             — a run in one direction reads the entries beyond the position, in order.
-/

namespace Lib

open Lib.Toward (on finish)

/-- What a run of moves in one direction reads until nothing is left, in at most `n` moves. -/
def visits {σ ε : Type*} (move : σ → σ) (read : σ → Option ε) : Nat → σ → List ε
  | 0, _ => []
  | n + 1, s =>
    match read (move s) with
    | none => []
    | some e => e :: visits move read n (move s)

structure MapCursor (κ ν : Type*) [LinearOrder κ] where
  map : SortedMap κ ν
  pos : CursorPos κ

namespace MapCursor

variable {κ ν : Type*} [LinearOrder κ]

def move (fwd : Bool) (s : MapCursor κ ν) : MapCursor κ ν := { s with pos := s.map.keys.after fwd s.pos }

def toEdge (fwd : Bool) (s : MapCursor κ ν) : MapCursor κ ν := { s with pos := s.map.keys.toEdge fwd }

def seek (key : κ) (s : MapCursor κ ν) : MapCursor κ ν :=
  { s with pos := s.map.keys.atOrAfter true (.key key) }

def read (s : MapCursor κ ν) : Option (κ × ν) :=
  match s.pos with
  | .key key => (s.map.find key).map fun val => (key, val)
  | _ => none

def inOrder (fwd : Bool) (s : MapCursor κ ν) : List (κ × ν) :=
  if fwd then s.map.entries else s.map.entries.reverse

/-- The entries a run in the direction has yet to pass, in its order. -/
def beyond (fwd : Bool) (s : MapCursor κ ν) : List (κ × ν) :=
  (s.inOrder fwd).filter fun e => on fwd s.pos < on fwd (.key e.1)

theorem map_inOrder (fwd : Bool) (s : MapCursor κ ν) : (s.inOrder fwd).map Prod.fst = s.map.keys.inOrder fwd := by
  cases fwd with
  | false => exact List.map_reverse
  | true => rfl

theorem pairwise_inOrder (fwd : Bool) (s : MapCursor κ ν) :
    (s.inOrder fwd).Pairwise fun d e => on fwd (.key d.1) < on fwd (.key e.1) := by
  have h := s.map.keys.pairwise_inOrder fwd
  rw [← map_inOrder, List.pairwise_map] at h
  exact h

/-- A move goes to the first entry beyond the position. -/
theorem move_pos (fwd : Bool) (s : MapCursor κ ν) :
    (s.move fwd).pos = ((s.beyond fwd).head?.map Prod.fst).elim (finish fwd) .key := by
  rw [move, SortedSet.after, SortedSet.firstWith, ← map_inOrder, List.find?_map, beyond, List.head?_filter]
  rfl

theorem find_of_mem_inOrder {fwd : Bool} {s : MapCursor κ ν} {e : κ × ν} (h : e ∈ s.inOrder fwd) :
    s.map.find e.1 = some e.2 := by
  refine SortedMap.mem_entries.mp ?_
  unfold inOrder at h
  split_ifs at h
  · exact h
  · exact List.mem_reverse.mp h

/-- After a move the entry moved to is no longer ahead. -/
theorem beyond_move {fwd : Bool} {s : MapCursor κ ν} {e : κ × ν} {rest : List (κ × ν)}
    (h : s.beyond fwd = e :: rest) : (s.move fwd).beyond fwd = rest := by
  have hpos : (s.move fwd).pos = .key e.1 := by
    rw [move_pos, h]
    rfl
  have he : on fwd s.pos < on fwd (.key e.1) := by
    have hmem : e ∈ s.beyond fwd := h ▸ List.mem_cons_self
    exact of_decide_eq_true (List.mem_filter.mp hmem).2
  have hpw : (e :: rest).Pairwise fun d e => on fwd (.key d.1) < on fwd (.key e.1) :=
    h ▸ (s.pairwise_inOrder fwd).filter _
  have hsub : (s.move fwd).beyond fwd = (e :: rest).filter fun d => on fwd (.key e.1) < on fwd (.key d.1) := by
    rw [← h, beyond, beyond, hpos, List.filter_filter]
    refine List.filter_congr fun d _ => ?_
    rw [← Bool.decide_and, decide_eq_decide]
    exact ⟨fun hd => ⟨hd, he.trans hd⟩, And.left⟩
  rw [hsub, List.filter_cons_of_neg (by simp), List.filter_eq_self]
  exact fun d hd => decide_eq_true (List.rel_of_pairwise_cons hpw hd)

theorem read_move {fwd : Bool} {s : MapCursor κ ν} {e : κ × ν} {rest : List (κ × ν)}
    (h : s.beyond fwd = e :: rest) : (s.move fwd).read = some e := by
  have hmem : e ∈ s.beyond fwd := h ▸ List.mem_cons_self
  have hfind : s.map.find e.1 = some e.2 := find_of_mem_inOrder (List.mem_filter.mp hmem).1
  have hpos : (s.move fwd).pos = .key e.1 := by
    rw [move_pos, h]
    rfl
  rw [read, hpos]
  change (s.map.find e.1).map _ = _
  rw [hfind]
  rfl

theorem read_move_nil {fwd : Bool} {s : MapCursor κ ν} (h : s.beyond fwd = []) : (s.move fwd).read = none := by
  have hpos : (s.move fwd).pos = finish fwd := by
    rw [move_pos, h]
    rfl
  rw [read, hpos]
  cases fwd <;> rfl

/-- **Runs over the map.** A run visits each entry beyond the position once, in order. -/
theorem visits_eq (fwd : Bool) {n : Nat} {s : MapCursor κ ν} (hn : (s.beyond fwd).length < n) :
    visits (move fwd) read n s = s.beyond fwd := by
  induction n generalizing s with
  | zero => exact absurd hn (Nat.not_lt_zero _)
  | succ n ih =>
    unfold visits
    cases h : s.beyond fwd with
    | nil => rw [read_move_nil h]
    | cons e rest =>
      rw [h, List.length_cons] at hn
      have hrest := beyond_move h
      rw [read_move h]
      change e :: _ = _
      rw [ih (by rw [hrest]; omega), hrest]

end MapCursor

end Lib
