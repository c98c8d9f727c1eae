import Db8.Lib.SortedSet

/-!
# Lib.SortedMap

Finite maps over a linear order, kept as lists of entries with strictly increasing keys.

* `SortedMap`              — the entries with their order as a field.
* `find`, `insert`, `erase` — with `find_insert` and `find_erase`.
* `keys`                   — the keys as a `SortedSet`, with `mem_keys`.
* `mem_entries`            — the entries are the pairs that `find` gives.
-/

namespace Lib

structure SortedMap (κ ν : Type*) [LinearOrder κ] where
  entries : List (κ × ν)
  sorted : entries.Pairwise fun p q => p.1 < q.1

namespace SortedMap

variable {κ ν : Type*} [LinearOrder κ]

def empty : SortedMap κ ν := ⟨[], List.Pairwise.nil⟩

instance [DecidableEq ν] : DecidableEq (SortedMap κ ν) := fun m n =>
  decidable_of_iff (m.entries = n.entries)
    ⟨fun h => by cases m; cases n; cases h; rfl, fun h => h ▸ rfl⟩

def findList (k : κ) : List (κ × ν) → Option ν
  | [] => none
  | (j, v) :: entries => if j = k then some v else findList k entries

def find (m : SortedMap κ ν) (k : κ) : Option ν := findList k m.entries

def keys (m : SortedMap κ ν) : SortedSet κ := ⟨m.entries.map Prod.fst, List.pairwise_map.mpr m.sorted⟩

@[simp] theorem find_empty (k : κ) : (empty : SortedMap κ ν).find k = none := rfl

theorem findList_eq_some {entries : List (κ × ν)} (hs : entries.Pairwise fun p q => p.1 < q.1) {k : κ}
    {v : ν} : findList k entries = some v ↔ (k, v) ∈ entries := by
  induction entries with
  | nil => simp [findList]
  | cons p entries ih =>
    obtain ⟨j, w⟩ := p
    obtain ⟨hj, hs'⟩ := List.pairwise_cons.mp hs
    by_cases hjk : j = k
    · subst hjk
      have hnot : (j, v) ∉ entries := fun hmem => (hj (j, v) hmem).false
      simp [findList, hnot, eq_comm]
    · simp [findList, hjk, ih hs', Ne.symm hjk]

theorem mem_entries {m : SortedMap κ ν} {k : κ} {v : ν} : (k, v) ∈ m.entries ↔ m.find k = some v :=
  (findList_eq_some m.sorted).symm

theorem mem_keys {m : SortedMap κ ν} {k : κ} : k ∈ m.keys ↔ m.find k ≠ none := by
  rw [Option.ne_none_iff_exists', SortedSet.mem_def, keys, List.mem_map]
  constructor
  · rintro ⟨⟨j, v⟩, hmem, rfl⟩
    exact ⟨v, mem_entries.mp hmem⟩
  · rintro ⟨v, hfind⟩
    exact ⟨(k, v), mem_entries.mpr hfind, rfl⟩

/-- Maps that find the same values are equal. -/
@[ext] theorem ext {m n : SortedMap κ ν} (h : ∀ k, m.find k = n.find k) : m = n := by
  obtain ⟨xs, hxs⟩ := m
  obtain ⟨ys, hys⟩ := n
  have hmem : ∀ p, p ∈ xs ↔ p ∈ ys := by
    rintro ⟨k, v⟩
    rw [← findList_eq_some hxs, ← findList_eq_some hys]
    exact Eq.congr_left (h k)
  have hnodup : ∀ {zs : List (κ × ν)}, zs.Pairwise (fun p q => p.1 < q.1) → zs.Nodup :=
    fun hzs => hzs.imp fun {p q} hlt he => (he ▸ hlt).false
  have hperm := (List.perm_ext_iff_of_nodup (hnodup hxs) (hnodup hys)).mpr hmem
  have : xs = ys := hperm.eq_of_pairwise (fun a b _ _ hab hba => absurd hab hba.asymm) hxs hys
  subst this
  rfl

/-! ## Insertion -/

def insertList (k : κ) (v : ν) : List (κ × ν) → List (κ × ν)
  | [] => [(k, v)]
  | (j, w) :: entries =>
    match cmp k j with
    | .lt => (k, v) :: (j, w) :: entries
    | .eq => (k, v) :: entries
    | .gt => (j, w) :: insertList k v entries

theorem fst_mem_insertList {k : κ} {v : ν} {entries : List (κ × ν)} {p : κ × ν}
    (h : p ∈ insertList k v entries) : p.1 = k ∨ p ∈ entries := by
  induction entries with
  | nil => simp_all [insertList]
  | cons q entries ih =>
    obtain ⟨j, w⟩ := q
    cases hc : cmp k j with
    | lt =>
      simp only [insertList, hc] at h
      rcases List.mem_cons.mp h with rfl | h
      exacts [.inl rfl, .inr h]
    | eq =>
      simp only [insertList, hc] at h
      rcases List.mem_cons.mp h with rfl | h
      exacts [.inl rfl, .inr (.tail _ h)]
    | gt =>
      simp only [insertList, hc] at h
      rcases List.mem_cons.mp h with rfl | h
      · exact .inr (.head _)
      · exact (ih h).imp id (.tail _)

theorem sorted_insertList (k : κ) (v : ν) {entries : List (κ × ν)}
    (hs : entries.Pairwise fun p q => p.1 < q.1) :
    (insertList k v entries).Pairwise fun p q => p.1 < q.1 := by
  induction entries with
  | nil => simp [insertList]
  | cons p entries ih =>
    obtain ⟨j, w⟩ := p
    obtain ⟨hj, hs'⟩ := List.pairwise_cons.mp hs
    cases hc : cmp k j with
    | lt =>
      have hkj := (cmp_eq_lt_iff _ _).mp hc
      simp only [insertList, hc]
      refine List.pairwise_cons.mpr ⟨fun q hq => ?_, hs⟩
      rcases List.mem_cons.mp hq with rfl | hq
      exacts [hkj, hkj.trans (hj q hq)]
    | eq =>
      obtain rfl := (cmp_eq_eq_iff _ _).mp hc
      simp only [insertList, hc]
      exact List.pairwise_cons.mpr ⟨hj, hs'⟩
    | gt =>
      have hjk := (cmp_eq_gt_iff _ _).mp hc
      simp only [insertList, hc]
      refine List.pairwise_cons.mpr ⟨fun q hq => ?_, ih hs'⟩
      rcases fst_mem_insertList hq with he | hq
      exacts [he ▸ hjk, hj q hq]

def insert (m : SortedMap κ ν) (k : κ) (v : ν) : SortedMap κ ν :=
  ⟨insertList k v m.entries, sorted_insertList k v m.sorted⟩

theorem findList_insertList (k : κ) (v : ν) (entries : List (κ × ν)) (j : κ) :
    findList j (insertList k v entries) = if j = k then some v else findList j entries := by
  induction entries with
  | nil => simp [insertList, findList, eq_comm]
  | cons p entries ih =>
    obtain ⟨i, w⟩ := p
    cases hc : cmp k i with
    | lt => simp [insertList, hc, findList, eq_comm]
    | eq =>
      obtain rfl := (cmp_eq_eq_iff _ _).mp hc
      rcases eq_or_ne j k with rfl | hj
      · simp [insertList, findList]
      · simp [insertList, findList, hj, hj.symm]
    | gt =>
      have hik := ((cmp_eq_gt_iff _ _).mp hc).ne
      rcases eq_or_ne j k with rfl | hj
      · simpa [insertList, hc, findList, hik] using ih
      · simp [insertList, hc, findList, ih, hj]

@[simp] theorem find_insert (m : SortedMap κ ν) (k : κ) (v : ν) (j : κ) :
    (m.insert k v).find j = if j = k then some v else m.find j :=
  findList_insertList k v m.entries j

/-! ## Removal -/

def erase (m : SortedMap κ ν) (k : κ) : SortedMap κ ν :=
  ⟨m.entries.filter fun p => p.1 ≠ k, m.sorted.filter _⟩

@[simp] theorem find_erase (m : SortedMap κ ν) (k j : κ) :
    (m.erase k).find j = if j = k then none else m.find j := by
  have hsome : ∀ v, (m.erase k).find j = some v ↔ m.find j = some v ∧ j ≠ k := by
    intro v
    rw [← mem_entries, ← mem_entries, erase, List.mem_filter]
    simp
  split_ifs with hj
  · rw [Option.eq_none_iff_forall_ne_some]
    exact fun v h => ((hsome v).mp h).2 hj
  · ext v
    rw [hsome]
    simp [hj]

/-! ## The part of a map -/

/-- The entries that meet a condition. -/
def filter (m : SortedMap κ ν) (keep : κ × ν → Bool) : SortedMap κ ν :=
  ⟨m.entries.filter keep, m.sorted.filter keep⟩

theorem find_filter_eq_some {m : SortedMap κ ν} {keep : κ × ν → Bool} {k : κ} {v : ν} :
    (m.filter keep).find k = some v ↔ m.find k = some v ∧ keep (k, v) = true := by
  rw [← mem_entries, ← mem_entries, filter, List.mem_filter]

theorem find_filter_of_keep {m : SortedMap κ ν} {keep : κ × ν → Bool} {k : κ}
    (h : ∀ v, m.find k = some v → keep (k, v) = true) : (m.filter keep).find k = m.find k := by
  refine Option.ext fun v => ?_
  rw [find_filter_eq_some]
  exact ⟨And.left, fun hv => ⟨hv, h v hv⟩⟩

end SortedMap

end Lib
