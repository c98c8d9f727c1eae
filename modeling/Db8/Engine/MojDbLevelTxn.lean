import Db8.Lib.SortedMap

/-!
# Engine.MojDbLevelTxn

The pending writes of a transaction on one table of the store (`MojDbLevelTableTxn`), over keys and
values of any type.

* `put`, `get`, `del`, `commitImpl` — what the transaction buffers, reads and writes.
* `merged`              — the content that a commit would leave, with `find_merged` and `get_eq`.
-/

namespace Db8

open Lib

/-- No key is pending both as a value and as a deletion. -/
structure MojDbLevelTableTxn (κ ν : Type*) [LinearOrder κ] where
  db : SortedMap κ ν
  pendingValues : SortedMap κ ν
  pendingDeletes : SortedSet κ
  disjoint : ∀ k ∈ pendingDeletes, pendingValues.find k = none

namespace MojDbLevelTableTxn

variable {κ ν : Type*} [LinearOrder κ]

theorem disjoint_begin (k : κ) (_ : k ∈ (SortedSet.empty : SortedSet κ)) :
    (SortedMap.empty : SortedMap κ ν).find k = none := rfl

def begin (db : SortedMap κ ν) : MojDbLevelTableTxn κ ν := ⟨db, .empty, .empty, disjoint_begin⟩

variable (txn : MojDbLevelTableTxn κ ν)

theorem disjoint_put (key : κ) (val : ν) :
    ∀ k ∈ txn.pendingDeletes.del key, (txn.pendingValues.insert key val).find k = none := by
  intro k hk
  rw [SortedSet.mem_del] at hk
  rw [SortedMap.find_insert, if_neg hk.2]
  exact txn.disjoint k hk.1

def put (key : κ) (val : ν) : MojDbLevelTableTxn κ ν where
  db := txn.db
  pendingValues := txn.pendingValues.insert key val
  pendingDeletes := txn.pendingDeletes.del key
  disjoint := txn.disjoint_put key val

theorem disjoint_del (key : κ) :
    ∀ k ∈ txn.pendingDeletes.put key, (txn.pendingValues.erase key).find k = none := by
  intro k hk
  rw [SortedMap.find_erase]
  split_ifs with he
  · rfl
  · exact txn.disjoint k ((SortedSet.mem_put.mp hk).resolve_left he)

def del (key : κ) : MojDbLevelTableTxn κ ν where
  db := txn.db
  pendingValues := txn.pendingValues.erase key
  pendingDeletes := txn.pendingDeletes.put key
  disjoint := txn.disjoint_del key

def get (key : κ) : Option ν :=
  if key ∈ txn.pendingDeletes then none
  else
    match txn.pendingValues.find key with
    | some val => some val
    | none => txn.db.find key

def isDeleted (key : κ) : Bool := key ∈ txn.pendingDeletes

/-- The write batch has the deletions first. -/
def commitImpl : SortedMap κ ν :=
  txn.pendingValues.entries.foldl (fun db p => db.insert p.1 p.2)
    (txn.pendingDeletes.elems.foldl (fun db k => db.erase k) txn.db)

/-! ## The merged content -/

theorem find_foldl_erase (db : SortedMap κ ν) (ks : List κ) (k : κ) :
    (ks.foldl (fun db j => db.erase j) db).find k = if k ∈ ks then none else db.find k := by
  induction ks generalizing db with
  | nil => simp
  | cons j ks ih =>
    rw [List.foldl_cons, ih, SortedMap.find_erase]
    by_cases hk : k ∈ ks <;> by_cases hj : k = j <;> simp [hk, hj]

theorem find_foldl_insert (db : SortedMap κ ν) {entries : List (κ × ν)}
    (hs : entries.Pairwise fun p q => p.1 < q.1) (k : κ) :
    (entries.foldl (fun db p => db.insert p.1 p.2) db).find k =
      (SortedMap.findList k entries).or (db.find k) := by
  induction entries generalizing db with
  | nil => rfl
  | cons p entries ih =>
    obtain ⟨j, v⟩ := p
    obtain ⟨hj, hs'⟩ := List.pairwise_cons.mp hs
    rw [List.foldl_cons, ih _ hs', SortedMap.find_insert, SortedMap.findList]
    by_cases hjk : j = k
    · subst hjk
      have hnone : SortedMap.findList j entries = none := by
        rw [Option.eq_none_iff_forall_ne_some]
        exact fun w hw => (hj _ ((SortedMap.findList_eq_some hs').mp hw)).false
      simp [hnone]
    · simp [hjk, Ne.symm hjk]

/-- The committed content under the pending writes. -/
def merged : SortedMap κ ν := txn.commitImpl

theorem find_merged (k : κ) :
    txn.merged.find k =
      if k ∈ txn.pendingDeletes then none else (txn.pendingValues.find k).or (txn.db.find k) := by
  rw [merged, commitImpl, find_foldl_insert _ txn.pendingValues.sorted, find_foldl_erase]
  change (txn.pendingValues.find k).or _ = _
  by_cases hk : k ∈ txn.pendingDeletes
  · rw [txn.disjoint k hk, if_pos hk]
    exact if_pos hk
  · rw [if_neg hk]
    exact congrArg _ (if_neg hk)

/-- Reads see the merged content. -/
theorem get_eq (k : κ) : txn.get k = txn.merged.find k := by
  rw [get, find_merged]
  split_ifs with hk
  · rfl
  · cases txn.pendingValues.find k <;> rfl

theorem merged_begin (db : SortedMap κ ν) : (begin db).merged = db := rfl

theorem merged_put (key : κ) (val : ν) : (txn.put key val).merged = txn.merged.insert key val := by
  ext1 k
  rw [find_merged, SortedMap.find_insert, find_merged, put, SortedMap.find_insert]
  by_cases hk : k = key <;> simp [hk]

theorem merged_del (key : κ) : (txn.del key).merged = txn.merged.erase key := by
  ext1 k
  rw [find_merged, SortedMap.find_erase, find_merged, del, SortedMap.find_erase]
  by_cases hk : k = key <;> simp [hk]

end MojDbLevelTableTxn

end Db8
