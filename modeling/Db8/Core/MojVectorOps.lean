import Db8.Core.MojVectorShared

/-!
# Core.MojVectorOps

Each function of the vector as the operation on its list.

* `RefIs`, `RangeIs`     — what a reference or a pair of iterators leads to.
* `Ready.fixed_or_own`   — a reference after the vector has got room.
* `Ok.push`, `Ok.append`, `Ok.insert`, `Ok.erase`, `Ok.reverse`, `Ok.clear`, `Ok.assign`, … — one function.
-/

namespace Db8

open Lib

namespace MojVector

variable {ι α : Type} [Fintype ι] [DecidableEq ι] {h h' : Heap α} {vecs : ι → MojVector} {f : ι → List α} {c : ι}
  {v v' : MojVector} {n : Nat} {a : α} {ref : Ref α} {vals : List α} {range : Range α}

/-! ## What references lead to -/

/-- The reference leads to the value `a`. -/
inductive RefIs (vecs : ι → MojVector) (f : ι → List α) : Ref α → α → Prop where
  | value (a : α) : RefIs vecs f (.value a) a
  | elem {d : ι} {i k : Nat} {a : α} (hd : (vecs d).begin = some i) (ha : (f d)[k]? = some a) : RefIs vecs f (.elem i k) a

structure RangeIs (vecs : ι → MojVector) (f : ι → List α) (range : Range α) (vals : List α) : Prop where
  size_eq : range.size = vals.length
  ref : ∀ j < vals.length, ∃ ref a, range.ref j = some ref ∧ vals[j]? = some a ∧ RefIs vecs f ref a

/-- The reference is to an element of the array of `v`. -/
def Ref.isOwn (v : MojVector) : Ref α → Prop
  | .value _ => False
  | .elem i _ => v.begin = some i

/-- What is read does not depend on the array of `v'`. -/
def Ref.Fixed (h' : Heap α) (v' : MojVector) (a : α) : Ref α → Prop
  | .value b => b = a
  | .elem i k => v'.begin ≠ some i ∧ h'.read i k = some a

omit [Fintype ι] [DecidableEq ι] in
theorem Ref.Fixed.read (hfixed : ref.Fixed h v a) (hframe : ∀ i, v.begin ≠ some i → h'.blocks i = h.blocks i)
    (hv : v'.begin = v.begin) (l : List α) : ref.read h' v' l = some a := by
  cases ref with
  | value b => exact congrArg some hfixed
  | elem i k =>
    obtain ⟨hne, hread⟩ := hfixed
    rw [Ref.read, if_neg (hv ▸ hne), Heap.read, hframe i hne]
    exact hread

omit [DecidableEq ι] in
/-- Vectors with one array have one list. -/
theorem Ok.eq_of_begin (hok : Ok h vecs f) {d : ι} {i : Nat} (hc : (vecs c).begin = some i) (hd : (vecs d).begin = some i) :
    f d = f c ∧ vecs d = vecs c := by
  have hsame := (hok.array d i hd).symm.trans (hok.array c i hc)
  simp only [Option.some.injEq, Block.mk.injEq] at hsame
  refine ⟨hsame.2.1, ?_⟩
  have hsize : (vecs d).size = (vecs c).size := by rw [hok.size_eq, hok.size_eq, hsame.2.1]
  cases hvd : vecs d
  cases hvc : vecs c
  simp_all

/-- After the vector has got room, a reference leads to its value whatever is done in the array, or it is to an element of the
array, which is still the one it was. -/
theorem Ready.fixed_or_own (hready : Ready h vecs f c n h' v') (hok : Ok h vecs f)
    (hstays : n ≤ (vecs c).capacity → MojVector.refCount h (vecs c) ≤ 1 → h' = h ∧ v' = vecs c) (href : RefIs vecs f ref a)
    (hclear : ref.isOwn (vecs c) → 1 < MojVector.refCount h (vecs c) ∨ n ≤ (vecs c).capacity) :
    ref.Fixed h' v' a ∨ MojVector.refCount h (vecs c) ≤ 1 ∧ v' = vecs c ∧
      ∃ i k, ref = .elem i k ∧ (vecs c).begin = some i ∧ (f c)[k]? = some a := by
  cases href with
  | value a => exact .inl rfl
  | @elem d i k a hd ha =>
    have hread : h.read i k = some a := by simp [Heap.read, hok.array d i hd, ha]
    have hblock : h.blocks i ≠ none := by simp [hok.array d i hd]
    have hnext : i ≠ h.next := by
      rintro rfl
      exact hok.begin_ne d hd
    by_cases hown : (vecs c).begin = some i
    · have hcount := hok.refCount hown
      by_cases hshared : 1 < MojVector.refCount h (vecs c)
      · refine .inl ?_
        rcases hready.moved with ⟨rfl, rfl⟩ | ⟨hbegin, hreads⟩
        · have hone := hready.one i hown
          rw [Function.update_eq_self] at hone
          omega
        · refine ⟨by simp [hbegin, hnext.symm], ?_⟩
          rw [hreads i hblock (fun _ => hcount ▸ hshared), hread]
      · have hn := (hclear hown).resolve_left hshared
        obtain ⟨rfl, rfl⟩ := hstays hn (not_lt.mp hshared)
        refine .inr ⟨not_lt.mp hshared, rfl, i, k, rfl, hown, ?_⟩
        rwa [← (hok.eq_of_begin hown hd).1]
    · refine .inl ?_
      rcases hready.moved with ⟨rfl, rfl⟩ | ⟨hbegin, hreads⟩
      · exact ⟨hown, hread⟩
      · refine ⟨by simp [hbegin, hnext.symm], ?_⟩
        rw [hreads i hblock fun he => absurd he hown, hread]

omit [Fintype ι] [DecidableEq ι] in
theorem Ref.read_own {i k : Nat} (hv : v.begin = some i) (l : List α) : (Ref.elem i k).read h v l = l[k]? :=
  if_pos hv

/-- What is read when the array has become `l`: an element of the old array has to be still at its place. -/
theorem Ready.read (hready : Ready h vecs f c n h' v') (hok : Ok h vecs f)
    (hstays : n ≤ (vecs c).capacity → MojVector.refCount h (vecs c) ≤ 1 → h' = h ∧ v' = vecs c) (href : RefIs vecs f ref a)
    (hclear : ref.isOwn (vecs c) → 1 < MojVector.refCount h (vecs c) ∨ n ≤ (vecs c).capacity) {h₂ : Heap α} {v₂ : MojVector}
    (hframe : ∀ i, v'.begin ≠ some i → h₂.blocks i = h'.blocks i) (hv : v₂.begin = v'.begin) {l : List α}
    (hplace : ∀ i k, ref = .elem i k → (vecs c).begin = some i → MojVector.refCount h (vecs c) ≤ 1 → (f c)[k]? = some a →
      l[k]? = some a) : ref.read h₂ v₂ l = some a := by
  rcases hready.fixed_or_own hok hstays href hclear with hfixed | ⟨hone, rfl, i, k, rfl, hbegin, ha⟩
  · exact hfixed.read hframe hv l
  · rw [Ref.read_own (hv.trans hbegin)]
    exact hplace i k rfl hbegin hone ha

theorem Ready.size_eq (hready : Ready h vecs f c n h' v') : v'.size = (f c).length := by
  have hsize := hready.ok.size_eq c
  rwa [Function.update_self] at hsize

/-! ## At the end -/

theorem Ok.push (hok : Ok h vecs f) (href : RefIs vecs f ref a)
    (hclear : ref.isOwn (vecs c) → 1 < MojVector.refCount h (vecs c) ∨ (f c).length + 1 ≤ (vecs c).capacity) :
    ∃ h' v', MojVector.push h (vecs c) ref = some (h', v') ∧
      Ok h' (Function.update vecs c v') (Function.update f c (f c ++ [a])) := by
  obtain ⟨h₁, v₁, hspace, hready, hstays⟩ := hok.ensureSpace c ((f c).length + 1)
  have hroom := hready.room
  have hsize := hready.size_eq
  have hread : ref.read h₁ v₁ (f c) = some a :=
    hready.read hok hstays href hclear (fun _ _ => rfl) rfl fun _ _ _ _ _ ha => ha
  have hloop : (do let a ← ref.read h₁ v₁ (f c); construct v₁.capacity v₁.size a (f c)) = some (f c ++ [a]) := by
    rw [hread, Option.bind_eq_bind, Option.bind_some, construct, if_pos ⟨hsize, by omega⟩]
  obtain ⟨h', honArray, hok', -⟩ := hready.ok.onArray hready.one
    (fun cap l => do let a ← ref.read h₁ v₁ l; construct cap v₁.size a l) hloop (by simpa using hroom)
  refine ⟨h', { v₁ with size := v₁.size + 1 }, ?_, by simpa [hsize] using hok'⟩
  rw [MojVector.push, hok.size_eq c, hspace, Option.bind_eq_bind, Option.bind_some]
  dsimp only
  rw [honArray]
  rfl

theorem Ok.append (hok : Ok h vecs f) (hrange : RangeIs vecs f range vals)
    (hclear : ∀ j < vals.length, ∀ ref, range.ref j = some ref → ref.isOwn (vecs c) →
      1 < MojVector.refCount h (vecs c) ∨ (f c).length + vals.length ≤ (vecs c).capacity) :
    ∃ h' v', MojVector.append h (vecs c) range = some (h', v') ∧
      Ok h' (Function.update vecs c v') (Function.update f c (f c ++ vals)) := by
  obtain ⟨h₁, v₁, hspace, hready, hstays⟩ := hok.ensureSpace c ((f c).length + vals.length)
  have hroom := hready.room
  have hsize := hready.size_eq
  have hloop : constructLoop v₁.capacity (fun l k => range.read h₁ v₁ l (k - v₁.size)) range.size v₁.size (f c) =
      some (f c ++ vals) := by
    rw [hsize, hrange.size_eq]
    refine constructLoop_eq hroom fun j hj => ?_
    obtain ⟨ref, a, href, ha, his⟩ := hrange.ref j hj
    rw [Nat.add_sub_cancel_left, Range.read, href, Option.bind_some, ha]
    refine hready.read hok hstays his (hclear j hj ref href) (fun _ _ => rfl) rfl fun i k _ _ _ hk => ?_
    rw [List.getElem?_append_left (List.getElem?_eq_some_iff.mp hk).1, hk]
  obtain ⟨h', honArray, hok', -⟩ := hready.ok.onArray hready.one
    (fun cap l => constructLoop cap (fun l k => range.read h₁ v₁ l (k - v₁.size)) range.size v₁.size l) hloop
    (by simpa using hroom)
  refine ⟨h', { v₁ with size := v₁.size + range.size }, ?_, by simpa [hsize, hrange.size_eq] using hok'⟩
  rw [← hrange.size_eq] at hspace
  rw [MojVector.append, hok.size_eq c, hspace, Option.bind_eq_bind, Option.bind_some]
  dsimp only
  rw [honArray]
  rfl

/-! ## In a gap -/

/-- `shift`, and a loop that fills the gap. -/
theorem Ok.shift_fill [Inhabited α] (hok : Ok h vecs f) (read : Heap α → MojVector → List α → Nat → Option α) {idx : Nat} (hidx : idx ≤ (f c).length)
    (hread : ∀ h₁ v₁ h₂ v₂ l', Ready h vecs f c ((f c).length + vals.length) h₁ v₁ →
      ((f c).length + vals.length ≤ (vecs c).capacity → MojVector.refCount h (vecs c) ≤ 1 → h₁ = h ∧ v₁ = vecs c) →
      (∀ i, v₁.begin ≠ some i → h₂.blocks i = h₁.blocks i) → v₂.begin = v₁.begin → Gap (f c) idx vals.length l' →
      ∀ j < vals.length, read h₂ v₂ (overwrite l' idx (vals.take j)) (idx + j) = vals[j]?) :
    ∃ h₁ v₁ h', MojVector.shift h (vecs c) idx vals.length = some (h₁, v₁) ∧
      MojVector.onArray h₁ v₁ (fun _ l => storeUp (read h₁ v₁) vals.length idx l) = some h' ∧
      Ok h' (Function.update vecs c v₁) (Function.update f c ((f c).take idx ++ vals ++ (f c).drop idx)) := by
  obtain ⟨h₁, v₁, hspace, hready, hstays⟩ := hok.ensureSpace c ((f c).length + vals.length)
  have hroom := hready.room
  have hsize := hready.size_eq
  obtain ⟨l', hshift, hgap⟩ := shiftLoops_spec hidx hroom
  obtain ⟨h₂, honArray₂, hok₂, hframe⟩ := hready.ok.onArray hready.one
    (shiftLoops v₁.size idx vals.length) (by rw [hsize]; exact hshift) (hgap.length_eq.trans_le hroom)
  have hone₂ : ∀ i, v₁.begin = some i →
      refs (begins (Function.update vecs c { v₁ with size := l'.length })) i = 1 := by
    simpa using hready.one
  have hfill : storeUp (read h₂ { v₁ with size := l'.length }) vals.length idx l' = some _ :=
    hgap.storeUp hidx (hread h₁ v₁ h₂ _ l' hready hstays hframe rfl hgap)
  have hlen : ((f c).take idx ++ vals ++ (f c).drop idx).length = l'.length := by
    simp only [List.length_append, List.length_take, List.length_drop, hgap.length_eq]
    omega
  obtain ⟨h', honArray, hok', -⟩ := hok₂.onArray hone₂
    (fun _ l => storeUp (read h₂ { v₁ with size := l'.length }) vals.length idx l) (by rw [Function.update_self]; exact hfill) (hlen ▸ hgap.length_eq.trans_le hroom)
  refine ⟨h₂, { v₁ with size := l'.length }, h', ?_, honArray, ?_⟩
  · rw [hsize] at honArray₂
    simp [MojVector.shift, hok.size_eq c, not_lt.mpr hidx, hspace, honArray₂, hsize, hgap.length_eq]
  · rw [hlen, Function.update_idem] at hok'
    exact hok'

theorem Ok.insert [Inhabited α] (hok : Ok h vecs f) {idx : Nat} (hidx : idx ≤ (f c).length) (n : Nat)
    (href : RefIs vecs f ref a)
    (hclear : ref.isOwn (vecs c) → n = 0 ∨ 1 < MojVector.refCount h (vecs c) ∨ (f c).length + n ≤ (vecs c).capacity)
    (hplace : ∀ i k, ref = .elem i k → (vecs c).begin = some i → n = 0 ∨ 1 < MojVector.refCount h (vecs c) ∨ k < idx + n) :
    ∃ h' v', MojVector.insert h (vecs c) idx n ref = some (h', v') ∧
      Ok h' (Function.update vecs c v')
        (Function.update f c ((f c).take idx ++ List.replicate n a ++ (f c).drop idx)) := by
  obtain ⟨vals, hvals⟩ : ∃ vals, vals = List.replicate n a := ⟨_, rfl⟩
  have hlen : vals.length = n := by rw [hvals, List.length_replicate]
  have hget : ∀ j < n, vals[j]? = some a := fun j hj => by rw [hvals, List.getElem?_replicate, if_pos hj]
  obtain ⟨h₁, v₁, h', hshift, hfill, hok'⟩ :=
    hok.shift_fill (fun h v l _ => ref.read h v l) hidx fun h₁ v₁ h₂ v₂ l' hready hstays hframe hv hgap j hj => by
      rw [hget j (hlen ▸ hj)]
      have hpos : n ≠ 0 := by omega
      refine hready.read hok hstays href (fun hown => hlen ▸ (hclear hown).resolve_left hpos) hframe hv
        fun i k hk hbegin hone ha => ?_
      have hlt := ((hplace i k hk hbegin).resolve_left hpos).resolve_left (not_lt.mpr hone)
      by_cases hfilled : idx ≤ k ∧ k < idx + j
      · have htake : (vals.take j).length = j := by
          rw [List.length_take]
          omega
        have hroom : idx + (vals.take j).length ≤ l'.length := by
          have := hgap.length_eq
          omega
        rw [getElem?_overwrite hroom, if_pos (by omega), List.getElem?_take_of_lt (by omega)]
        exact hget _ (by omega)
      · rw [hgap.getElem?_overwrite_take hidx hj.le (List.getElem?_eq_some_iff.mp ha).1 (by omega) (by omega), ha]
  refine ⟨h', v₁, ?_, hvals ▸ hok'⟩
  rw [hlen] at hshift hfill
  rw [MojVector.insert, hshift, Option.bind_eq_bind, Option.bind_some]
  dsimp only
  rw [hfill]
  rfl

theorem Ok.insertRange [Inhabited α] (hok : Ok h vecs f) {idx : Nat} (hidx : idx ≤ (f c).length)
    (hrange : RangeIs vecs f range vals)
    (hclear : ∀ j < vals.length, ∀ ref, range.ref j = some ref → ref.isOwn (vecs c) →
      1 < MojVector.refCount h (vecs c) ∨ (f c).length + vals.length ≤ (vecs c).capacity)
    (hplace : ∀ j < vals.length, ∀ i k, range.ref j = some (.elem i k) → (vecs c).begin = some i →
      1 < MojVector.refCount h (vecs c) ∨ k < idx ∨ k = idx + j) :
    ∃ h' v', MojVector.insertRange h (vecs c) idx range = some (h', v') ∧
      Ok h' (Function.update vecs c v') (Function.update f c ((f c).take idx ++ vals ++ (f c).drop idx)) := by
  obtain ⟨h₁, v₁, h', hshift, hfill, hok'⟩ :=
    hok.shift_fill (fun h v l k => range.read h v l (k - idx)) hidx fun h₁ v₁ h₂ v₂ l' hready hstays hframe hv hgap j hj => by
      obtain ⟨ref, a, href, ha, his⟩ := hrange.ref j hj
      rw [Nat.add_sub_cancel_left, Range.read, href, Option.bind_some, ha]
      refine hready.read hok hstays his (hclear j hj ref href) hframe hv fun i k hk hbegin hone hka => ?_
      have hout := (hplace j hj i k (hk ▸ href) hbegin).resolve_left (not_lt.mpr hone)
      rw [hgap.getElem?_overwrite_take hidx hj.le (List.getElem?_eq_some_iff.mp hka).1 (by omega) (by omega), hka]
  refine ⟨h', v₁, ?_, hok'⟩
  rw [← hrange.size_eq] at hshift hfill
  rw [MojVector.insertRange, hshift, Option.bind_eq_bind, Option.bind_some]
  dsimp only
  rw [hfill]
  rfl

/-! ## Fewer elements -/

theorem Ok.erase (hok : Ok h vecs f) {idx : Nat} (hidx : idx + n ≤ (f c).length) (hsize : (f c).length < 2 ^ 64) :
    ∃ h' v', MojVector.erase h (vecs c) idx n = some (h', v', none) ∧
      Ok h' (Function.update vecs c v') (Function.update f c ((f c).take idx ++ (f c).drop (idx + n))) := by
  obtain ⟨h₁, v₁, hwritable, hready⟩ := hok.ensureWritable c
  have hsize₁ := hready.size_eq
  have hmod : (idx + n) % 2 ^ 64 = idx + n := Nat.mod_eq_of_lt (by omega)
  have hroom : ((f c).take idx ++ (f c).drop (idx + n)).length = (f c).length - n := by
    simp only [List.length_append, List.length_take, List.length_drop]
    omega
  obtain ⟨h', honArray, hok', -⟩ := hready.ok.onArray hready.one
    (fun _ l => eraseLoops (f c).length idx n ((f c).length - (idx + n)) l) (eraseLoops_eq hidx)
    (by have := hok.room c; have := hready.room; omega)
  refine ⟨h', { v₁ with size := (f c).length - n }, ?_, hroom ▸ hok'⟩
  simp only [MojVector.erase, hok.size_eq c, hmod, if_neg (not_lt.mpr hidx), hwritable, Option.bind_eq_bind, Option.bind_some,
    hsize₁, honArray]

omit [DecidableEq ι] in
theorem Ok.erase_outOfRange (hok : Ok h vecs f) {idx : Nat} (hidx : (f c).length < idx + n) (hsum : idx + n < 2 ^ 64) :
    MojVector.erase h (vecs c) idx n = some (h, vecs c, some .valueOutOfRange) := by
  rw [MojVector.erase, hok.size_eq c, Nat.mod_eq_of_lt hsum, if_pos hidx]

theorem Ok.pop (hok : Ok h vecs f) (hne : f c ≠ []) (hsize : (f c).length < 2 ^ 64) :
    ∃ h' v', MojVector.pop h (vecs c) = some (h', v', none) ∧
      Ok h' (Function.update vecs c v') (Function.update f c (f c).dropLast) := by
  have hpos : 0 < (f c).length := List.length_pos_iff.mpr hne
  have hlast : ((vecs c).size + (2 ^ 64 - 1)) % 2 ^ 64 = (f c).length - 1 := by
    rw [hok.size_eq c]
    omega
  have hidx : (f c).length - 1 + 1 ≤ (f c).length := by omega
  obtain ⟨h', v', herase, hok'⟩ := hok.erase hidx hsize
  refine ⟨h', v', by rw [MojVector.pop, hlast, herase], ?_⟩
  rwa [Nat.sub_add_cancel hpos, List.drop_length, List.append_nil, ← List.dropLast_eq_take] at hok'

theorem Ok.resize [Inhabited α] (hok : Ok h vecs f) (n : Nat) (href : RefIs vecs f ref a) (hsize : (f c).length < 2 ^ 64)
    (hclear : ref.isOwn (vecs c) → 1 < MojVector.refCount h (vecs c) ∨ n ≤ (vecs c).capacity) :
    ∃ h' v', MojVector.resize h (vecs c) n ref = some (h', v', none) ∧
      Ok h' (Function.update vecs c v')
        (Function.update f c ((f c).take n ++ List.replicate (n - (f c).length) a)) := by
  rcases lt_trichotomy (f c).length n with hlt | rfl | hgt
  · have hplace : ∀ i k, ref = .elem i k → (vecs c).begin = some i →
        n - (f c).length = 0 ∨ 1 < MojVector.refCount h (vecs c) ∨ k < (f c).length + (n - (f c).length) := by
      rintro i k rfl hc
      cases href with
      | elem hd ha =>
        rw [(hok.eq_of_begin hc hd).1] at ha
        have := (List.getElem?_eq_some_iff.mp ha).1
        omega
    obtain ⟨h', v', hinsert, hok'⟩ := hok.insert (c := c) le_rfl (n - (f c).length) href
      (fun hown => .inr ((hclear hown).imp_right fun hroom => by omega)) hplace
    refine ⟨h', v', ?_, ?_⟩
    · rw [MojVector.resize, hok.size_eq c, if_pos hlt, hinsert]
      rfl
    · rw [List.take_of_length_le hlt.le]
      simpa using hok'
  · exact ⟨h, vecs c, by simp [MojVector.resize, hok.size_eq c], by simpa using hok⟩
  · have hsum : n + ((f c).length - n) = (f c).length := by omega
    obtain ⟨h', v', herase, hok'⟩ := hok.erase (c := c) hsum.le hsize
    refine ⟨h', v', ?_, ?_⟩
    · rw [MojVector.resize, hok.size_eq c, if_neg (by omega), if_pos hgt, herase]
    · rw [hsum, List.drop_length, List.append_nil] at hok'
      simpa [Nat.sub_eq_zero_of_le hgt.le] using hok'

theorem Ok.reverse (hok : Ok h vecs f) (c : ι) :
    ∃ h' v', MojVector.reverse h (vecs c) = some (h', v') ∧
      Ok h' (Function.update vecs c v') (Function.update f c (f c).reverse) := by
  by_cases hmany : 1 < (f c).length
  · obtain ⟨h₁, v₁, hwritable, hready⟩ := hok.ensureWritable c
    have hroom : (f c).reverse.length ≤ v₁.capacity := by
      rw [List.length_reverse]
      exact (hok.room c).trans hready.room
    obtain ⟨h', honArray, hok', -⟩ := hready.ok.onArray hready.one
      (fun _ l => reverseLoop v₁.size 0 (v₁.size - 1) l) (by rw [hready.size_eq]; exact reverseLoop_eq (f c)) hroom
    refine ⟨h', { v₁ with size := v₁.size }, ?_, ?_⟩
    · simp only [MojVector.reverse, hok.size_eq c, if_pos hmany, hwritable, Option.bind_eq_bind, Option.bind_some, honArray]
    · rw [List.length_reverse, ← hready.size_eq] at hok'
      exact hok'
  · refine ⟨h, vecs c, by rw [MojVector.reverse, hok.size_eq c, if_neg hmany], ?_⟩
    have hsame : (f c).reverse = f c := by
      rcases hl : f c with _ | ⟨a, _ | ⟨b, l⟩⟩
      · rfl
      · rfl
      · simp [hl] at hmany
    rwa [hsame, Function.update_eq_self, Function.update_eq_self]

/-- The vector keeps an array of its own, and gives a shared one up. -/
theorem Ok.clear (hok : Ok h vecs f) (c : ι) :
    ∃ h' v', MojVector.clear h (vecs c) = some (h', v') ∧ Ok h' (Function.update vecs c v') (Function.update f c []) ∧
      (v'.begin = none ∨ v'.begin = (vecs c).begin ∧ (f c = [] ∨ MojVector.refCount h (vecs c) = 1)) := by
  by_cases hnil : f c = []
  · refine ⟨h, vecs c, by simp [MojVector.clear, hok.size_eq c, hnil], ?_, .inr ⟨rfl, .inl hnil⟩⟩
    have hupdate : Function.update f c [] = f := hnil ▸ Function.update_eq_self c f
    rwa [Function.update_eq_self, hupdate]
  · have hpos : (vecs c).size ≠ 0 := by
      rw [hok.size_eq c]
      exact fun hzero => hnil (List.length_eq_zero_iff.mp hzero)
    by_cases hone : MojVector.refCount h (vecs c) = 1
    · have hloop : destroyEnd (vecs c).size (vecs c).size (f c) = some [] := by
        simp [destroyEnd, hok.size_eq c]
      obtain ⟨h', honArray, hok', -⟩ := hok.onArray_self (c := c) (fun i hi => (hok.refCount hi).symm.trans hone)
        (fun _ l => destroyEnd (vecs c).size (vecs c).size l) hloop (Nat.zero_le _)
      refine ⟨h', { vecs c with size := 0 }, ?_, hok', .inr ⟨rfl, .inr hone⟩⟩
      simp only [MojVector.clear, if_neg hpos, if_pos hone, honArray, Option.bind_eq_bind, Option.bind_some]
    · obtain ⟨h', hrelease, hok', -, -⟩ := hok.release c
      exact ⟨h', MojVector.null, by simp [MojVector.clear, hpos, hone, hrelease], hok', .inl rfl⟩

/-! ## Assignment -/

/-- A reference that is not into the array of `c`, or into one that others have too, leads to its value after `c` is cleared. -/
theorem RefIs.cleared (href : RefIs vecs f ref a) (hok : Ok h vecs f) (v' : MojVector)
    (hclear : ref.isOwn (vecs c) → 1 < MojVector.refCount h (vecs c)) :
    RefIs (Function.update vecs c v') (Function.update f c []) ref a := by
  cases href with
  | value a => exact .value a
  | @elem d i k a hd ha =>
    obtain ⟨e, hne, he, hae⟩ : ∃ e, e ≠ c ∧ (vecs e).begin = some i ∧ (f e)[k]? = some a := by
      rcases eq_or_ne d c with rfl | hdc
      · obtain ⟨e, hne, he⟩ := exists_ne_of_refs (hok.refCount hd ▸ hclear hd) d
        exact ⟨e, hne, he, by rw [(hok.eq_of_begin hd he).1, ha]⟩
      · exact ⟨d, hdc, hd, ha⟩
    exact .elem (d := e) (by simpa [hne] using he) (by simpa [hne] using hae)

theorem Ok.assignRange (hok : Ok h vecs f) (hrange : RangeIs vecs f range vals)
    (hclear : ∀ j < vals.length, ∀ ref, range.ref j = some ref → ref.isOwn (vecs c) →
      1 < MojVector.refCount h (vecs c)) :
    ∃ h' v', MojVector.assignRange h (vecs c) range = some (h', v') ∧
      Ok h' (Function.update vecs c v') (Function.update f c vals) := by
  obtain ⟨h₁, v₁, hcleared, hok₁, hbegin⟩ := hok.clear c
  have hself : Function.update vecs c v₁ c = v₁ := Function.update_self _ _ _
  have hnil : Function.update f c [] c = [] := Function.update_self _ _ _
  have hrange₁ : RangeIs (Function.update vecs c v₁) (Function.update f c []) range vals := by
    refine ⟨hrange.size_eq, fun j hj => ?_⟩
    obtain ⟨ref, a, href, ha, his⟩ := hrange.ref j hj
    exact ⟨ref, a, href, ha, his.cleared hok v₁ (hclear j hj ref href)⟩
  -- no element of the range is in an array that the vector keeps
  have hnotOwn : ∀ j < vals.length, ∀ ref, range.ref j = some ref → ¬ref.isOwn v₁ := by
    intro j hj ref href hown
    obtain ⟨ref', a, href', ha, his⟩ := hrange.ref j hj
    obtain rfl : ref = ref' := Option.some.inj (href.symm.trans href')
    cases his with
    | value a => exact hown
    | elem hd hk =>
      rcases hbegin with hnone | ⟨hsame, hempty | hone⟩
      · cases hnone.symm.trans hown
      · rw [(hok.eq_of_begin (hsame.symm.trans hown) hd).1, hempty] at hk
        cases hk
      · have := hclear j hj _ href (hsame.symm.trans hown)
        omega
  obtain ⟨h', v', happend, hok'⟩ := hok₁.append (c := c) hrange₁ fun j hj ref href hown =>
    absurd (hself ▸ hown) (hnotOwn j hj ref href)
  rw [hself] at happend
  rw [hnil, Function.update_idem, Function.update_idem, List.nil_append] at hok'
  exact ⟨h', v', by simp [MojVector.assignRange, hcleared, happend], hok'⟩

/-- A vector becomes another one; a vector that becomes itself has no array, or does not have it alone. -/
theorem Ok.assign (hok : Ok h vecs f) (c d : ι)
    (hclear : c = d → (vecs c).begin = none ∨ 1 < MojVector.refCount h (vecs c)) :
    ∃ h' v', MojVector.assign h (vecs c) (vecs d) = some (h', v') ∧
      Ok h' (Function.update vecs c v') (Function.update f c (f d)) := by
  by_cases hnull : c = d ∧ (vecs c).begin = none
  · obtain ⟨rfl, hnone⟩ := hnull
    refine ⟨h, vecs c, by simp [MojVector.assign, MojVector.release, retain, hnone], ?_⟩
    rwa [Function.update_eq_self, Function.update_eq_self]
  -- another vector has the array
  · obtain ⟨e, hne, hvec, hlist⟩ : ∃ e, e ≠ c ∧ vecs e = vecs d ∧ f e = f d := by
      rcases eq_or_ne c d with rfl | hcd
      · have hshared := (hclear rfl).resolve_left fun hnone => hnull ⟨rfl, hnone⟩
        rcases Option.eq_none_or_eq_some (vecs c).begin with hnone | ⟨i, hc⟩
        · exact absurd ⟨rfl, hnone⟩ hnull
        · obtain ⟨e, hne, he⟩ := exists_ne_of_refs (hok.refCount hc ▸ hshared) c
          obtain ⟨hlist, hvec⟩ := hok.eq_of_begin hc he
          exact ⟨e, hne, hvec, hlist⟩
      · exact ⟨d, hcd.symm, rfl, rfl⟩
    obtain ⟨h₁, hrelease, hok₁, -, -⟩ := hok.release c
    obtain ⟨h', hretain, hok'⟩ := hok₁.attach (c := c) (by simp [MojVector.null]) e
    rw [Function.update_of_ne hne, hvec] at hretain hok'
    rw [Function.update_of_ne hne, hlist, Function.update_idem, Function.update_idem] at hok'
    exact ⟨h', vecs d, by simp [MojVector.assign, hrelease, hretain], hok'⟩

end MojVector

end Db8
