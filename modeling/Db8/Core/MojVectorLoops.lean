import Db8.Core.MojVector

/-!
# Core.MojVectorLoops

What the loops over the array of a vector leave in it.

* `Gap`              — an array with a gap for new elements, the others before and behind it.
* `shiftLoops_spec`  — `shift` leaves a gap, in which the old elements still are.
* `Gap.storeUp`      — the gap is filled.
* `eraseLoops_eq`    — `erase` takes elements out.
* `reverseLoop_eq`   — `reverse` turns the array round.
-/

namespace Db8

open Lib

namespace MojVector

variable {α : Type} {l l' vals : List α} {idx n cap : Nat}

/-! ## A gap -/

/-- The list `l` with a gap of `n` elements at `idx`. -/
structure Gap (l : List α) (idx n : Nat) (l' : List α) : Prop where
  length_eq : l'.length = l.length + n
  kept : ∀ k, k < l.length → k < idx + n → l'[k]? = l[k]?
  moved : ∀ k, idx + n ≤ k → l'[k]? = l[k - n]?

theorem Gap.fill (h : Gap l idx vals.length l') (hidx : idx ≤ l.length) :
    overwrite l' idx vals = l.take idx ++ vals ++ l.drop idx := by
  have htake : l'.take idx = l.take idx := by
    refine List.ext_getElem? fun k => ?_
    rw [List.getElem?_take, List.getElem?_take]
    split_ifs with hk
    · exact h.kept k (by omega) (by omega)
    · rfl
  have hdrop : l'.drop (idx + vals.length) = l.drop idx := by
    refine List.ext_getElem? fun k => ?_
    rw [List.getElem?_drop, List.getElem?_drop, h.moved _ (by omega)]
    congr 1
    omega
  rw [overwrite, htake, hdrop]

theorem Gap.storeUp (h : Gap l idx vals.length l') (hidx : idx ≤ l.length) {read : List α → Nat → Option α}
    (hread : ∀ j < vals.length, read (overwrite l' idx (vals.take j)) (idx + j) = vals[j]?) :
    storeUp read vals.length idx l' = some (l.take idx ++ vals ++ l.drop idx) := by
  have hlen := h.length_eq
  rw [storeUp_eq (by omega) hread, h.fill hidx]

/-- An element outside of what is already filled is where it was. -/
theorem Gap.getElem?_overwrite_take (h : Gap l idx vals.length l') (hidx : idx ≤ l.length) {j k : Nat}
    (hj : j ≤ vals.length) (hk : k < l.length) (hlt : k < idx + vals.length) (hout : k < idx ∨ idx + j ≤ k) :
    (overwrite l' idx (vals.take j))[k]? = l[k]? := by
  have hlen := h.length_eq
  have htake : (vals.take j).length = j := by
    rw [List.length_take]
    omega
  rw [getElem?_overwrite (by omega), if_neg (by omega)]
  exact h.kept k hk hlt

/-! ## The loops of `shift` -/

theorem constructLoop_default [Inhabited α] (hcap : l.length + n ≤ cap) :
    constructLoop cap (fun _ _ => some default) n l.length l = some (l ++ List.replicate n default) := by
  have hlen : (List.replicate n (default : α)).length = n := List.length_replicate
  have hloop : constructLoop cap (fun _ _ => some default) (List.replicate n (default : α)).length l.length l = _ :=
    constructLoop_eq (by omega) fun j hj => by
      rw [List.getElem?_replicate, if_pos (by omega)]
  rwa [hlen] at hloop

/-- The last elements are constructed again, `n` places on. -/
theorem constructLoop_before {d count : Nat} (hcount : count ≤ l.length) (hn : n = d + count) {gap : List α}
    (hgap : gap.length = d) (hcap : l.length + n ≤ cap) :
    constructLoop cap (before n) count (l.length + d) (l ++ gap) = some (l ++ gap ++ l.drop (l.length - count)) := by
  have hlen : (l.drop (l.length - count)).length = count := by
    rw [List.length_drop]
    omega
  have happend : (l ++ gap).length = l.length + d := by
    rw [List.length_append, hgap]
  have hloop : constructLoop cap (before n) (l.drop (l.length - count)).length (l ++ gap).length (l ++ gap) = _ :=
    constructLoop_eq (by omega) fun j hj => by
      rw [before, if_pos (by omega), List.append_assoc, List.getElem?_append_left (by omega), List.getElem?_drop]
      congr 1
      omega
  rwa [hlen, happend] at hloop

/-- The elements before them are assigned, the last first. -/
theorem storeDown_before {d count size : Nat} (hsize : size = idx + d + count) (hlen : size ≤ l.length)
    (hd : 0 < count → d = n) :
    storeDown (before n) count (size - 1) l = some (overwrite l (idx + d) ((l.drop idx).take count)) := by
  have hvals : ((l.drop idx).take count).length = count := by
    rw [List.length_take, List.length_drop]
    omega
  have hloop : storeDown (before n) ((l.drop idx).take count).length (idx + d + ((l.drop idx).take count).length - 1) l = _ :=
    storeDown_eq (by omega) fun j hj => by
      obtain rfl : d = n := hd (by omega)
      have hplace : idx + d + j - d = idx + j := by omega
      rw [before, if_pos (by omega), hplace, getElem?_overwrite (by rw [List.length_drop]; omega), if_neg (by omega),
        List.getElem?_take_of_lt (by omega), List.getElem?_drop]
  rwa [hvals, ← hsize] at hloop

/-- The gap that is left when the last `d` elements are constructed behind the array and the `count` before them are assigned. -/
theorem gap_of_overwrite {d count : Nat} (hcount : l.length = idx + d + count) (hdn : d ≤ n) (hd : 0 < count → d = n)
    (hlen : l'.length = l.length + n) (hold : ∀ k < l.length, l'[k]? = l[k]?)
    (hlast : ∀ k, l.length + (n - d) ≤ k → l'[k]? = l[k - n]?) :
    Gap l idx n (overwrite l' (idx + d) ((l'.drop idx).take count)) := by
  have hvals : ((l'.drop idx).take count).length = count := by
    rw [List.length_take, List.length_drop]
    omega
  refine ⟨by rw [length_overwrite (by omega), hlen], fun k hk hlt => ?_, fun k hk => ?_⟩
  · rw [getElem?_overwrite (by omega), if_neg (by omega), hold k hk]
  · rw [getElem?_overwrite (by omega), hvals]
    split_ifs with hmoved
    · rw [List.getElem?_take_of_lt (by omega), List.getElem?_drop, hold _ (by omega)]
      congr 1
      omega
    · exact hlast k (by omega)

theorem shiftLoops_spec [Inhabited α] (hidx : idx ≤ l.length) (hcap : l.length + n ≤ cap) :
    ∃ l', shiftLoops l.length idx n cap l = some l' ∧ Gap l idx n l' := by
  obtain ⟨copied, hcopied⟩ : ∃ copied, copied = min n (l.length - idx) := ⟨_, rfl⟩
  obtain ⟨gap, hgap⟩ : ∃ gap : List α, gap = List.replicate (n - copied) default := ⟨_, rfl⟩
  have hgaplen : gap.length = n - copied := by rw [hgap, List.length_replicate]
  obtain ⟨l₂, hl₂⟩ : ∃ l₂, l₂ = l ++ gap ++ l.drop (l.length - copied) := ⟨_, rfl⟩
  have hlen₂ : l₂.length = l.length + n := by
    simp only [hl₂, List.length_append, List.length_drop, hgaplen]
    omega
  have hold : ∀ k < l.length, l₂[k]? = l[k]? := by
    intro k hk
    rw [hl₂, List.append_assoc, List.getElem?_append_left hk]
  have hlast : ∀ k, l.length + (n - copied) ≤ k → l₂[k]? = l[k - n]? := by
    intro k hk
    rw [hl₂, List.getElem?_append_right (by rw [List.length_append]; omega), List.getElem?_drop, List.length_append]
    congr 1
    omega
  have hconstruct : constructLoop cap (fun _ _ => some default) (n - copied) l.length l = some (l ++ gap) :=
    hgap ▸ constructLoop_default (by omega)
  have hcopy : constructLoop cap (before n) copied (l.length + (n - copied)) (l ++ gap) = some l₂ :=
    hl₂ ▸ constructLoop_before (by omega) (by omega) hgaplen hcap
  have hdown := storeDown_before (show l.length = idx + copied + (l.length - idx - copied) by omega)
    (show l.length ≤ l₂.length by omega) (show 0 < l.length - idx - copied → copied = n by omega)
  have hcopiedn : copied ≤ n := by omega
  have hgap' := gap_of_overwrite (show l.length = idx + copied + (l.length - idx - copied) by omega) hcopiedn (by omega)
    hlen₂ hold hlast
  refine ⟨_, ?_, hgap'⟩
  simp only [shiftLoops, ← hcopied, hconstruct, hcopy, Option.bind_eq_bind, Option.bind_some]
  exact hdown

/-! ## The loops of `erase` and `reverse` -/

theorem eraseLoops_eq (h : idx + n ≤ l.length) :
    eraseLoops l.length idx n (l.length - (idx + n)) l = some (l.take idx ++ l.drop (idx + n)) := by
  have hvals : (l.drop (idx + n)).length = l.length - (idx + n) := List.length_drop
  have hloop : storeUp (fun l k => l[k + n]?) (l.drop (idx + n)).length idx l = _ :=
    storeUp_eq (by omega) fun j hj => by
      have htake : ((l.drop (idx + n)).take j).length = j := by
        rw [List.length_take]
        omega
      rw [getElem?_overwrite (by omega), if_neg (by omega), List.getElem?_drop]
      congr 1
      omega
  rw [hvals] at hloop
  have hlen : (overwrite l idx (l.drop (idx + n))).length = l.length := length_overwrite (by omega)
  have htake : (overwrite l idx (l.drop (idx + n))).take (l.length - n) = l.take idx ++ l.drop (idx + n) := by
    rw [overwrite, List.take_left' ?_]
    rw [List.length_append, List.length_take, hvals]
    omega
  rw [eraseLoops, hloop, Option.bind_eq_bind, Option.bind_some, destroyEnd, if_pos ⟨by omega, hlen.symm⟩, htake]

theorem swapElems_eq {init mid rest : List α} {a b : α} :
    swapElems init.length (init.length + mid.length + 1) (init ++ a :: (mid ++ b :: rest)) =
      some (init ++ b :: (mid ++ a :: rest)) := by
  have hlast : (init ++ a :: (mid ++ b :: rest))[init.length + mid.length + 1]? = some b := by
    rw [List.getElem?_append_right (by omega), Nat.add_assoc, Nat.add_sub_cancel_left, List.getElem?_cons_succ]
    simp
  have hset : (init ++ a :: (mid ++ b :: rest)).set init.length b = init ++ b :: (mid ++ b :: rest) := by
    simp
  have hset' : (init ++ b :: (mid ++ b :: rest)).set (init.length + mid.length + 1) a = init ++ b :: (mid ++ a :: rest) := by
    rw [List.set_append_right _ _ (by omega), Nat.add_assoc, Nat.add_sub_cancel_left, List.set_cons_succ]
    simp
  simp [swapElems, hlast, store, hset']
  omega

theorem reverseLoop_append {fuel : Nat} (init mid rest : List α) (hfuel : mid.length ≤ fuel) :
    reverseLoop fuel init.length (init.length + mid.length - 1) (init ++ mid ++ rest) = some (init ++ mid.reverse ++ rest) := by
  induction fuel generalizing init mid rest with
  | zero =>
    obtain rfl : mid = [] := List.length_eq_zero_iff.mp (Nat.le_zero.mp hfuel)
    simp [reverseLoop]
  | succ fuel ih =>
    cases mid with
    | nil => simp [reverseLoop]
    | cons a mid =>
      rcases List.eq_nil_or_concat mid with rfl | ⟨mid, b, rfl⟩
      · simp [reverseLoop]
      · simp only [List.concat_eq_append, List.length_cons, List.length_append, List.length_nil] at hfuel ⊢
        have hrest := ih (init ++ [b]) mid (a :: rest) (by omega)
        have hlast : init.length + (mid.length + 1 + 1) - 1 = init.length + mid.length + 1 := by omega
        have hnext : (init ++ [b]).length + mid.length - 1 = init.length + mid.length + 1 - 1 := by simp
        have hsplit : init ++ a :: (mid ++ [b]) ++ rest = init ++ a :: (mid ++ b :: rest) := by simp
        rw [hnext, List.length_append, List.length_singleton] at hrest
        rw [hlast, hsplit, reverseLoop, if_pos (by omega), swapElems_eq, Option.bind_eq_bind, Option.bind_some]
        simpa using hrest

theorem reverseLoop_eq (l : List α) : reverseLoop l.length 0 (l.length - 1) l = some l.reverse := by
  have hloop := reverseLoop_append [] l [] le_rfl
  simpa using hloop

end MojVector

end Db8
