import Db8.Core.MojVectorLoops
import Db8.Lib.RefCount

/-!
# Core.MojVectorShared

The memory with all arrays, and vectors that share them.

* `Ok`                — each vector has its list as content, and each array counts the vectors that point to it.
* `Ok.release`, `Ok.attach`, `Ok.alloc` — a vector gives its array up, or gets another one.
* `Ready`, `Ok.ensureSpace` — a vector has an array of its own with room enough.
* `Ok.onArray`        — a loop over that array changes this vector and no other.
-/

namespace Db8

open Lib

namespace MojVector

variable {ι α : Type} [Fintype ι] {h h' : Heap α} {vecs : ι → MojVector} {f : ι → List α} {c : ι} {v v' : MojVector} {i k n : Nat}

def begins (vecs : ι → MojVector) (c : ι) : Option Nat := (vecs c).begin

/-- The vectors have the lists `f` as content. -/
structure Ok (h : Heap α) (vecs : ι → MojVector) (f : ι → List α) : Prop where
  array : ∀ c i, (vecs c).begin = some i → h.blocks i = some ⟨(vecs c).capacity, f c, refs (begins vecs) i⟩
  null : ∀ c, (vecs c).begin = none → f c = [] ∧ (vecs c).capacity = 0
  size_eq : ∀ c, (vecs c).size = (f c).length
  room : ∀ c, (f c).length ≤ (vecs c).capacity
  fresh : ∀ i, h.next ≤ i → h.blocks i = none

namespace Ok

theorem begin_ne (hok : Ok h vecs f) (c : ι) : (vecs c).begin ≠ some h.next := by
  intro hc
  have harray := hok.array c _ hc
  rw [hok.fresh _ le_rfl] at harray
  cases harray

theorem get (hok : Ok h vecs f) (c : ι) (k : Nat) : MojVector.get h (vecs c) k = (f c)[k]? := by
  cases hc : (vecs c).begin with
  | none => simp [MojVector.get, hc, (hok.null c hc).1]
  | some i => simp [MojVector.get, hc, Heap.read, hok.array c i hc]

theorem refCount (hok : Ok h vecs f) (hc : (vecs c).begin = some i) :
    MojVector.refCount h (vecs c) = refs (begins vecs) i := by
  simp [MojVector.refCount, hc, hok.array c i hc]

end Ok

theorem refCount_of_null (hc : v.begin = none) : MojVector.refCount h v = 0 := by
  simp [MojVector.refCount, hc]

variable [DecidableEq ι]

omit [Fintype ι] in
@[simp] theorem begins_update (vecs : ι → MojVector) (c : ι) (v : MojVector) :
    begins (Function.update vecs c v) = Function.update (begins vecs) c v.begin := by
  funext d
  rcases eq_or_ne d c with rfl | hd
  · simp [begins]
  · simp [begins, hd]

theorem refs_begins_of_ne (hc : (vecs c).begin ≠ some i) (hv : v.begin ≠ some i) :
    refs (begins (Function.update vecs c v)) i = refs (begins vecs) i := by
  rw [begins_update]
  exact refs_update_of_ne hc hv

/-! ## Vectors get and give up arrays -/

namespace Ok

/-- A vector with another pointer, when the arrays of the others count as many as before. -/
theorem update (hok : Ok h vecs f) {l : List α}
    (hself : ∀ i, v.begin = some i → h'.blocks i = some ⟨v.capacity, l, refs (begins (Function.update vecs c v)) i⟩)
    (hnull : v.begin = none → l = [] ∧ v.capacity = 0) (hsize : v.size = l.length) (hroom : l.length ≤ v.capacity)
    (hothers : ∀ d, d ≠ c → ∀ i, (vecs d).begin = some i →
      h'.blocks i = some ⟨(vecs d).capacity, f d, refs (begins (Function.update vecs c v)) i⟩)
    (hfresh : ∀ i, h'.next ≤ i → h'.blocks i = none) :
    Ok h' (Function.update vecs c v) (Function.update f c l) := by
  refine ⟨fun d i hd => ?_, fun d hd => ?_, fun d => ?_, fun d => ?_, hfresh⟩
  · rcases eq_or_ne d c with rfl | hne
    · simp only [Function.update_self] at hd ⊢
      exact hself i hd
    · simp only [Function.update_of_ne hne] at hd ⊢
      exact hothers d hne i hd
  · rcases eq_or_ne d c with rfl | hne
    · simp only [Function.update_self] at hd ⊢
      exact hnull hd
    · simp only [Function.update_of_ne hne] at hd ⊢
      exact hok.null d hd
  · rcases eq_or_ne d c with rfl | hne
    · simp [hsize]
    · simp [hne, hok.size_eq d]
  · rcases eq_or_ne d c with rfl | hne
    · simp [hroom]
    · simp [hne, hok.room d]

/-- What is read of the arrays that stay: those that are not the last reference of the vector. -/
theorem release (hok : Ok h vecs f) (c : ι) :
    ∃ h', MojVector.release h (vecs c) = some h' ∧ Ok h' (Function.update vecs c MojVector.null) (Function.update f c []) ∧
      h'.next = h.next ∧
      ∀ i, h.blocks i ≠ none → ((vecs c).begin = some i → 1 < refs (begins vecs) i) → ∀ k, h'.read i k = h.read i k := by
  cases hc : (vecs c).begin with
  | none =>
    refine ⟨h, by simp [MojVector.release, hc], ?_, rfl, fun _ _ _ _ => rfl⟩
    refine hok.update nofun (fun _ => ⟨rfl, rfl⟩) rfl le_rfl (fun d _ j hd => ?_) hok.fresh
    rw [refs_begins_of_ne (by simp [hc]) (by simp [MojVector.null])]
    exact hok.array d j hd
  | some i =>
    have harray := hok.array c i hc
    have hupdate := refs_update (begins vecs) c none i
    rw [if_pos (show begins vecs c = some i from hc), if_neg nofun] at hupdate
    have hothers : ∀ d, d ≠ c → ∀ j, j ≠ i → (vecs d).begin = some j →
        h.blocks j = some ⟨(vecs d).capacity, f d, refs (begins (Function.update vecs c MojVector.null)) j⟩ := by
      intro d _ j hj hd
      rw [refs_begins_of_ne (fun he => hj (Option.some.inj (he.symm.trans hc))) (by simp [MojVector.null])]
      exact hok.array d j hd
    by_cases hone : refs (begins vecs) i = 1
    · refine ⟨h.set i none, by simp [MojVector.release, hc, harray, hone, hok.size_eq c], ?_, rfl, fun j _ hj k => ?_⟩
      · refine hok.update nofun (fun _ => ⟨rfl, rfl⟩) rfl le_rfl (fun d hd j hdj => ?_) fun j hj => ?_
        · have hji : j ≠ i := by
            rintro rfl
            exact ne_of_refs hone hc hd hdj
          simpa [Heap.set, hji] using hothers d hd j hji hdj
        · simp [Heap.set, Function.update_apply, hok.fresh j hj]
      · have hji : j ≠ i := by
          rintro rfl
          have := hj rfl
          omega
        simp [Heap.set, Heap.read, hji]
    · refine ⟨h.set i (some ⟨(vecs c).capacity, f c, refs (begins vecs) i - 1⟩),
        by simp [MojVector.release, hc, harray, hone], ?_, rfl, fun j _ _ k => ?_⟩
      · refine hok.update nofun (fun _ => ⟨rfl, rfl⟩) rfl le_rfl (fun d hd j hdj => ?_) fun j hj => ?_
        · rcases eq_or_ne j i with rfl | hji
          · have hsame := (hok.array d j hdj).symm.trans harray
            simp only [Option.some.injEq, Block.mk.injEq] at hsame
            simp only [Heap.set, Function.update_self, Option.some.injEq, Block.mk.injEq, begins_update,
              MojVector.null]
            exact ⟨hsame.1.symm, hsame.2.1.symm, by omega⟩
          · simpa [Heap.set, hji] using hothers d hd j hji hdj
        · have hji : j ≠ i := by
            rintro rfl
            rw [hok.fresh j hj] at harray
            cases harray
          simp [Heap.set, hji, hok.fresh j hj]
      · rcases eq_or_ne j i with rfl | hji
        · simp [Heap.set, Heap.read, harray]
        · simp [Heap.set, Heap.read, hji]

/-- A vector without an array gets that of another one. -/
theorem attach (hok : Ok h vecs f) (hc : (vecs c).begin = none) (d : ι) :
    ∃ h', retain h (vecs d) = some h' ∧ Ok h' (Function.update vecs c (vecs d)) (Function.update f c (f d)) := by
  cases hd : (vecs d).begin with
  | none =>
    refine ⟨h, by simp [retain, hd], ?_⟩
    refine hok.update (fun i hi => ?_) (fun _ => hok.null d hd) (hok.size_eq d) (hok.room d) (fun e _ i he => ?_) hok.fresh
    · rw [hd] at hi
      cases hi
    · rw [refs_begins_of_ne (by simp [hc]) (by simp [hd])]
      exact hok.array e i he
  | some i =>
    have harray := hok.array d i hd
    have hcount : refs (begins (Function.update vecs c (vecs d))) i = refs (begins vecs) i + 1 := by
      have hupdate := refs_update (begins vecs) c (some i) i
      rw [if_neg (by simp [begins, hc]), if_pos rfl] at hupdate
      rw [begins_update, hd]
      omega
    refine ⟨h.set i (some ⟨(vecs d).capacity, f d, refs (begins vecs) i + 1⟩), by simp [retain, hd, harray], ?_⟩
    refine hok.update (fun j hj => ?_) (fun hnone => ?_) (hok.size_eq d) (hok.room d) (fun e _ j he => ?_) fun j hj => ?_
    · obtain rfl : i = j := Option.some.inj (hd.symm.trans hj)
      rw [hcount]
      simp [Heap.set]
    · rw [hd] at hnone
      cases hnone
    · rcases eq_or_ne j i with rfl | hji
      · have hsame := (hok.array e j he).symm.trans harray
        simp only [Option.some.injEq, Block.mk.injEq] at hsame
        rw [hcount, hsame.1, hsame.2.1]
        simp [Heap.set]
      · rw [refs_begins_of_ne (by simp [hc]) (by simp [hd, hji.symm])]
        simpa [Heap.set, hji] using hok.array e j he
    · have hji : j ≠ i := by
        rintro rfl
        rw [hok.fresh j hj] at harray
        cases harray
      simp [Heap.set, hji, hok.fresh j hj]

/-- A vector without an array gets a new one. -/
theorem alloc (hok : Ok h vecs f) (hc : (vecs c).begin = none) {l : List α} (hroom : l.length ≤ n) :
    Ok (h.alloc ⟨n, l, 1⟩) (Function.update vecs c ⟨some h.next, l.length, n⟩) (Function.update f c l) ∧
      refs (begins (Function.update vecs c ⟨some h.next, l.length, n⟩)) h.next = 1 := by
  have hone : refs (begins (Function.update vecs c ⟨some h.next, l.length, n⟩)) h.next = 1 := by
    have hupdate := refs_update (begins vecs) c (some h.next) h.next
    have hzero : refs (begins vecs) h.next = 0 := refs_eq_zero fun d => hok.begin_ne d
    rw [if_neg (by simp [begins, hc]), if_pos rfl, hzero] at hupdate
    rw [begins_update]
    omega
  refine ⟨hok.update (fun i hi => ?_) nofun rfl hroom (fun d _ i hd => ?_) (fun i hi => ?_), hone⟩
  · obtain rfl := Option.some.inj hi
    rw [hone]
    simp [Heap.alloc]
  · have hi : i ≠ h.next := by
      rintro rfl
      exact hok.begin_ne d hd
    rw [refs_begins_of_ne (by simp [hc]) (by simp [hi.symm])]
    simpa [Heap.alloc, hi] using hok.array d i hd
  · have hi' : h.next + 1 ≤ i := hi
    simp [Heap.alloc, Function.update_of_ne (show i ≠ h.next by omega), hok.fresh i (by omega)]

end Ok

/-! ## An array of its own -/

omit [Fintype ι] [DecidableEq ι] in
theorem release_alloc (h : Heap α) {b : Block α} (hv : v.begin ≠ some h.next) :
    release (h.alloc b) v = (release h v).map fun h' => h'.alloc b := by
  cases hbegin : v.begin with
  | none => simp [release, hbegin]
  | some i =>
    have hi : i ≠ h.next := fun he => hv (hbegin.trans (congrArg some he))
    have hblock : (h.alloc b).blocks i = h.blocks i := Function.update_of_ne hi _ _
    cases hold : h.blocks i with
    | none => simp [release, hbegin, hblock, hold]
    | some b' =>
      simp only [release, hbegin, hblock, hold, Option.bind_eq_bind, Option.bind_some]
      split_ifs <;> simp [Heap.alloc, Heap.set, Function.update_comm hi]

/-- The vector `c` has room for `n` elements in the array of `v'`, which no other vector has. Either nothing is changed for it, or
the array is a new one, and of the old ones those are as they were that `c` did not have for itself. -/
structure Ready (h : Heap α) (vecs : ι → MojVector) (f : ι → List α) (c : ι) (n : Nat) (h' : Heap α) (v' : MojVector) : Prop where
  ok : Ok h' (Function.update vecs c v') f
  one : ∀ i, v'.begin = some i → refs (begins (Function.update vecs c v')) i = 1
  room : n ≤ v'.capacity
  moved : (h' = h ∧ v' = vecs c) ∨ v'.begin = some h.next ∧
    ∀ i, h.blocks i ≠ none → ((vecs c).begin = some i → 1 < refs (begins vecs) i) → ∀ k, h'.read i k = h.read i k

theorem Ok.realloc (hok : Ok h vecs f) (c : ι) (hn : (f c).length ≤ n) :
    ∃ h' v', MojVector.realloc h (vecs c) n = some (h', v') ∧ v'.capacity = n ∧ Ready h vecs f c n h' v' := by
  obtain ⟨h₁, hrelease, hok₁, hnext, hread⟩ := hok.release c
  have hcopy : constructLoop n (fun _ k => MojVector.get h (vecs c) k) (f c).length 0 [] = some (f c) := by
    have hloop : constructLoop n (fun _ k => MojVector.get h (vecs c) k) (f c).length ([] : List α).length [] = _ :=
      constructLoop_eq (by simpa using hn) fun j _ => by simp [hok.get]
    simpa using hloop
  obtain ⟨hok₂, hone⟩ := hok₁.alloc (c := c) (by simp [MojVector.null]) hn
  simp only [Function.update_idem, Function.update_eq_self, hnext] at hok₂ hone
  have halloc : MojVector.release (h.alloc ⟨n, f c, 1⟩) (vecs c) = some (h₁.alloc ⟨n, f c, 1⟩) := by
    rw [release_alloc h (hok.begin_ne c), hrelease, Option.map_some]
  refine ⟨h₁.alloc ⟨n, f c, 1⟩, ⟨some h.next, (f c).length, n⟩, ?_, rfl, hok₂, ?_, le_rfl, .inr ⟨rfl, ?_⟩⟩
  · simp [MojVector.realloc, hok.size_eq c, hcopy, halloc]
  · intro i hi
    cases hi
    exact hone
  · intro i hi hshared k
    have hne : i ≠ h₁.next := by
      rintro rfl
      exact hi (hok.fresh _ hnext.ge)
    have hblock : (h₁.alloc ⟨n, f c, 1⟩).blocks i = h₁.blocks i := Function.update_of_ne hne _ _
    rw [Heap.read, hblock]
    exact hread i hi hshared k

theorem Ready.mono {m : Nat} (hready : Ready h vecs f c n h' v') (hm : m ≤ n) : Ready h vecs f c m h' v' :=
  ⟨hready.ok, hready.one, hm.trans hready.room, hready.moved⟩

theorem Ok.ensureWritable (hok : Ok h vecs f) (c : ι) :
    ∃ h' v', MojVector.ensureWritable h (vecs c) = some (h', v') ∧ Ready h vecs f c (vecs c).capacity h' v' := by
  by_cases hshared : 1 < MojVector.refCount h (vecs c)
  · obtain ⟨h', v', hrealloc, -, hready⟩ := hok.realloc c (hok.room c)
    exact ⟨h', v', by rw [MojVector.ensureWritable, if_pos hshared, hrealloc], hready⟩
  · refine ⟨h, vecs c, if_neg hshared, ?_, fun i hi => ?_, le_rfl, .inl ⟨rfl, rfl⟩⟩
    · rwa [Function.update_eq_self]
    · have hpos : 0 < refs (begins vecs) i := refs_pos (c := c) hi
      rw [hok.refCount hi] at hshared
      rw [Function.update_eq_self]
      omega

omit [Fintype ι] [DecidableEq ι] in
theorem ensureWritable_of_le (hone : MojVector.refCount h v ≤ 1) : MojVector.ensureWritable h v = some (h, v) :=
  if_neg (by omega)

theorem Ready.refCount_le (hready : Ready h vecs f c n h' v') : MojVector.refCount h' v' ≤ 1 := by
  cases hv : v'.begin with
  | none => exact (refCount_of_null hv).trans_le (Nat.zero_le 1)
  | some i =>
    have hcount := hready.ok.refCount (c := c) (i := i) (by simpa using hv)
    rw [Function.update_self, hready.one i hv] at hcount
    exact hcount.le

/-- With room enough in an array of its own, nothing is changed. -/
theorem Ok.ensureSpace (hok : Ok h vecs f) (c : ι) (n : Nat) :
    ∃ h' v', MojVector.ensureSpace h (vecs c) n = some (h', v') ∧ Ready h vecs f c n h' v' ∧
      (n ≤ (vecs c).capacity → MojVector.refCount h (vecs c) ≤ 1 → h' = h ∧ v' = vecs c) := by
  by_cases hgrow : (vecs c).capacity < n
  · obtain ⟨h', v', hrealloc, -, hready⟩ := hok.realloc c
      ((hok.room c).trans (hgrow.le.trans (Nat.le_max_left n (max InitialSize ((vecs c).capacity * 2)))))
    refine ⟨h', v', ?_, hready.mono (Nat.le_max_left _ _), fun hle => absurd hgrow (not_lt.mpr hle)⟩
    simp [MojVector.ensureSpace, hgrow, hrealloc, ensureWritable_of_le hready.refCount_le]
  · obtain ⟨h', v', hwritable, hready⟩ := hok.ensureWritable c
    refine ⟨h', v', by simp [MojVector.ensureSpace, hgrow, hwritable], hready.mono (not_lt.mp hgrow), fun _ hone => ?_⟩
    cases hwritable.symm.trans (ensureWritable_of_le hone)
    exact ⟨rfl, rfl⟩

omit [Fintype ι] in
theorem begins_withSize (vecs : ι → MojVector) (c : ι) (size : Nat) :
    begins (Function.update vecs c { vecs c with size := size }) = begins vecs := by
  rw [begins_update]
  exact Function.update_eq_self c (begins vecs)

/-- A loop over the array of one vector. -/
theorem Ok.onArray_self (hok : Ok h vecs f) (hone : ∀ i, (vecs c).begin = some i → refs (begins vecs) i = 1)
    (loop : Nat → List α → Option (List α)) {l : List α} (hloop : loop (vecs c).capacity (f c) = some l)
    (hroom : l.length ≤ (vecs c).capacity) :
    ∃ h', MojVector.onArray h (vecs c) loop = some h' ∧
      Ok h' (Function.update vecs c { vecs c with size := l.length }) (Function.update f c l) ∧
      ∀ i, (vecs c).begin ≠ some i → h'.blocks i = h.blocks i := by
  rcases Option.eq_none_or_eq_some (vecs c).begin with hc | ⟨i, hc⟩
  · obtain ⟨hnil, hcap⟩ := hok.null c hc
    rw [hcap] at hroom hloop
    rw [hnil] at hloop
    obtain rfl : l = [] := List.length_eq_zero_iff.mp (Nat.le_zero.mp hroom)
    refine ⟨h, by simp [MojVector.onArray, hc, hloop], ?_, fun _ _ => rfl⟩
    refine hok.update (fun i hi => ?_) (fun _ => ⟨rfl, hcap⟩) rfl (Nat.zero_le _) (fun d _ i hd => ?_) hok.fresh
    · cases hc.symm.trans hi
    · rw [begins_withSize]
      exact hok.array d i hd
  · have harray := hok.array c i hc
    refine ⟨h.set i (some ⟨(vecs c).capacity, l, refs (begins vecs) i⟩),
      by simp only [MojVector.onArray, hc, harray, hloop, Option.bind_eq_bind, Option.bind_some], ?_, fun j hj => ?_⟩
    · refine hok.update (fun j hj => ?_) (fun hnone => ?_) rfl hroom (fun d hd j hdj => ?_) fun j hj => ?_
      · obtain rfl : i = j := Option.some.inj (hc.symm.trans hj)
        rw [begins_withSize]
        simp [Heap.set]
      · cases hc.symm.trans hnone
      · have hji : j ≠ i := by
          rintro rfl
          exact ne_of_refs (hone j hc) hc hd hdj
        rw [begins_withSize]
        simpa [Heap.set, hji] using hok.array d j hdj
      · have hji : j ≠ i := by
          rintro rfl
          rw [hok.fresh j hj] at harray
          cases harray
        simp [Heap.set, hji, hok.fresh j hj]
    · exact Function.update_of_ne (fun he => hj (hc.trans (congrArg some he.symm))) _ _

theorem Ok.onArray (hok : Ok h (Function.update vecs c v) f)
    (hone : ∀ i, v.begin = some i → refs (begins (Function.update vecs c v)) i = 1)
    (loop : Nat → List α → Option (List α)) {l : List α} (hloop : loop v.capacity (f c) = some l)
    (hroom : l.length ≤ v.capacity) :
    ∃ h', MojVector.onArray h v loop = some h' ∧
      Ok h' (Function.update vecs c { v with size := l.length }) (Function.update f c l) ∧
      ∀ i, v.begin ≠ some i → h'.blocks i = h.blocks i := by
  have hself : Function.update vecs c v c = v := Function.update_self _ _ _
  have honArray := hok.onArray_self (c := c) (by rwa [hself]) loop (by rwa [hself]) (by rwa [hself])
  rwa [hself, Function.update_idem] at honArray

end MojVector

end Db8
