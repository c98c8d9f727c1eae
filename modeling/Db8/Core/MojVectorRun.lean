import Db8.Core.MojVectorOps

/-!
# Core.MojVectorRun

Several vectors over a run of operations: each is a list of its own.

* `specStep`          — the operations on lists.
* `Clear`, `Clears`   — the state before an operation, or before each of a run, leads to no defect.
* `Shown`, `Behaves`  — what is read of the vectors are their lists; a run does with them what it does with the lists.
* `Inv.step`          — an operation on a clear state.
* `behaves_of_clears` — a run all of whose states are clear.
-/

namespace Db8

open Lib

namespace MojVector

variable {ι α : Type} [DecidableEq ι] {s : State ι α} {f f' : ι → List α} {c : ι} {err : Option MojErr}

/-! ## Lists -/

def Arg.val (f : ι → List α) : Arg ι α → Option α
  | .value a => some a
  | .elem d k => (f d)[k]?

def RangeArg.vals (f : ι → List α) : RangeArg ι α → Option (List α)
  | .values vals => some vals
  | .elems d first last => if first ≤ last ∧ last ≤ (f d).length then some (((f d).take last).drop first) else none

/-- The list of `c` becomes `l`, when it is one that a `MojSize` counts. -/
def become (f : ι → List α) (c : ι) (l : List α) : Option ((ι → List α) × Option MojErr) :=
  if l.length < 2 ^ 64 then some (Function.update f c l, none) else none

/-- An operation on a list for each vector; none for arguments and positions that there are not. -/
def specStep (f : ι → List α) : Op ι α → Option ((ι → List α) × Option MojErr)
  | .push c val => do
    let a ← val.val f
    become f c (f c ++ [a])
  | .append c range => do
    let vals ← range.vals f
    become f c (f c ++ vals)
  | .insert c idx numElems val => do
    let a ← val.val f
    if idx ≤ (f c).length then become f c ((f c).take idx ++ List.replicate numElems a ++ (f c).drop idx) else none
  | .insertRange c idx range => do
    let vals ← range.vals f
    if idx ≤ (f c).length then become f c ((f c).take idx ++ vals ++ (f c).drop idx) else none
  | .erase c idx numElems =>
    if idx + numElems ≤ (f c).length then become f c ((f c).take idx ++ (f c).drop (idx + numElems))
    else some (f, some .valueOutOfRange)
  | .pop c => if (f c).isEmpty then none else become f c (f c).dropLast
  | .resize c numElems val => do
    let a ← val.val f
    become f c ((f c).take numElems ++ List.replicate (numElems - (f c).length) a)
  | .reverse c => become f c (f c).reverse
  | .clear c => become f c []
  | .assignRange c range => do
    let vals ← range.vals f
    become f c vals
  | .assign c rhs => become f c (f rhs)

/-! ## What leads to a defect -/

def Shared (s : State ι α) (c : ι) : Prop := 1 < refCount s.heap (s.vecs c)

/-- An element of the array of `c` is an argument only if others have the array too, or if it is at a place that does no harm. -/
def Arg.Clear (s : State ι α) (c : ι) (place : Nat → Prop) : Arg ι α → Prop
  | .value _ => True
  | .elem d k => (s.vecs d).begin = (s.vecs c).begin → Shared s c ∨ place k

def RangeArg.Clear (s : State ι α) (c : ι) (place : Nat → Nat → Prop) : RangeArg ι α → Prop
  | .values _ => True
  | .elems d first last => (s.vecs d).begin = (s.vecs c).begin → first = last ∨ Shared s c ∨ place first last

/-- Elements of an array that is freed for a greater one, or that `shift` moves before they are read, are not arguments;
a vector that is assigned to itself does not have its array alone; the end of what is erased is a `MojSize`. -/
def Clear (s : State ι α) : Op ι α → Prop
  | .push c val => val.Clear s c fun _ => (s.vecs c).size + 1 ≤ (s.vecs c).capacity
  | .append c range => range.Clear s c fun first last => (s.vecs c).size + (last - first) ≤ (s.vecs c).capacity
  | .insert c idx numElems val =>
    val.Clear s c fun k => numElems = 0 ∨ (s.vecs c).size + numElems ≤ (s.vecs c).capacity ∧ k < idx + numElems
  | .insertRange c idx range =>
    range.Clear s c fun first last =>
      (s.vecs c).size + (last - first) ≤ (s.vecs c).capacity ∧ (last ≤ idx ∨ first = idx)
  | .erase _ idx numElems => idx + numElems < 2 ^ 64
  | .resize c numElems val => val.Clear s c fun _ => numElems ≤ (s.vecs c).capacity
  | .assignRange c range => range.Clear s c fun _ _ => False
  | .assign c rhs => c = rhs → (s.vecs c).begin = none ∨ Shared s c
  | _ => True

/-- Each operation of the run is clear in the state before it. -/
def Clears [Inhabited α] : State ι α → List (Op ι α) → Prop
  | _, [] => True
  | s, op :: ops => Clear s op ∧ ∀ s' err, step s op = some (s', err) → Clears s' ops

/-! ## What is seen -/

/-- The sizes and the elements are those of the lists. -/
def Shown (s : State ι α) (f : ι → List α) : Prop :=
  ∀ c, (s.vecs c).size = (f c).length ∧ ∀ k < (f c).length, get s.heap (s.vecs c) k = (f c)[k]?

/-- While the operations are such that lists have them, they return what they do for lists, and the vectors show the lists. -/
def Behaves [Inhabited α] : State ι α → (ι → List α) → List (Op ι α) → Prop
  | _, _, [] => True
  | s, f, op :: ops =>
    ∀ f' err, specStep f op = some (f', err) → ∃ s', step s op = some (s', err) ∧ Shown s' f' ∧ Behaves s' f' ops

variable [Fintype ι]

structure Inv (s : State ι α) (f : ι → List α) : Prop where
  ok : Ok s.heap s.vecs f
  short : ∀ c, (f c).length < 2 ^ 64

omit [DecidableEq ι] in
theorem inv_start : Inv (start ι α) fun _ => [] :=
  ⟨⟨nofun, fun _ _ => ⟨rfl, rfl⟩, fun _ => rfl, fun _ => le_rfl, fun _ _ => rfl⟩, fun _ => Nat.two_pow_pos 64⟩

omit [DecidableEq ι] in
theorem Inv.shown (h : Inv s f) : Shown s f := fun c => ⟨h.ok.size_eq c, fun k _ => h.ok.get c k⟩

/-- A call that gives the list of `c` the content `l`. -/
theorem Inv.returned (h : Inv s f) {l : List α} (hspec : become f c l = some (f', err)) {call : Option (Heap α × MojVector)}
    (hcall : ∃ h' v', call = some (h', v') ∧ Ok h' (Function.update s.vecs c v') (Function.update f c l)) :
    ∃ s', call.map (MojVector.returned s c) = some (s', err) ∧ Inv s' f' := by
  obtain ⟨h', v', rfl, hok⟩ := hcall
  simp only [become, Option.ite_none_right_eq_some, Option.some.injEq, Prod.mk.injEq] at hspec
  obtain ⟨hlen, rfl, rfl⟩ := hspec
  refine ⟨_, rfl, hok, fun d => ?_⟩
  rcases eq_or_ne d c with rfl | hd
  · simpa using hlen
  · simpa [hd] using h.short d

theorem Inv.returnedErr (h : Inv s f) {l : List α} (hspec : become f c l = some (f', err))
    {call : Option (Heap α × MojVector × Option MojErr)}
    (hcall : ∃ h' v', call = some (h', v', none) ∧ Ok h' (Function.update s.vecs c v') (Function.update f c l)) :
    ∃ s', call.map (MojVector.returnedErr s c) = some (s', err) ∧ Inv s' f' := by
  obtain ⟨h', v', rfl, hok⟩ := hcall
  obtain ⟨s', hs', hinv⟩ := h.returned hspec ⟨h', v', rfl, hok⟩
  exact ⟨s', hs', hinv⟩

/-! ## Arguments -/

omit [DecidableEq ι] in
theorem Inv.exists_ref (h : Inv s f) {val : Arg ι α} {a : α} (hval : val.val f = some a) :
    ∃ ref, val.ref s = some ref ∧ RefIs s.vecs f ref a ∧
      ∀ c place, val.Clear s c place → ∀ i k, ref = .elem i k → (s.vecs c).begin = some i → Shared s c ∨ place k := by
  cases val with
  | value b =>
    cases hval
    exact ⟨_, rfl, .value a, nofun⟩
  | elem d k =>
    have hk : k < (f d).length := (List.getElem?_eq_some_iff.mp hval).1
    obtain ⟨i, hd⟩ : ∃ i, (s.vecs d).begin = some i := by
      rcases Option.eq_none_or_eq_some (s.vecs d).begin with hnone | hsome
      · rw [(h.ok.null d hnone).1] at hk
        cases hk
      · exact hsome
    refine ⟨.elem i k, by simp [Arg.ref, h.ok.size_eq d, hk, hd], .elem hd hval, fun c place hclear j m hjm hc => ?_⟩
    cases hjm
    exact hclear (hd.trans hc.symm)

omit [DecidableEq ι] in
theorem Inv.exists_range (h : Inv s f) {range : RangeArg ι α} {vals : List α} (hvals : range.vals f = some vals) :
    ∃ r, range.range s = some r ∧ RangeIs s.vecs f r vals ∧
      ∀ c place, range.Clear s c place → ∀ j < vals.length, ∀ i k, r.ref j = some (.elem i k) →
        (s.vecs c).begin = some i →
        Shared s c ∨ ∃ first last, place first last ∧ vals.length = last - first ∧ k = first + j := by
  cases range with
  | values vals' =>
    cases hvals
    refine ⟨.values vals, rfl, ⟨rfl, fun j hj => ?_⟩, fun c place _ j hj i k hjk => ?_⟩
    · have hget : vals[j]? = some vals[j] := List.getElem?_eq_getElem hj
      exact ⟨.value vals[j], vals[j], by simp [Range.ref, hget], hget, .value _⟩
    · have hget : vals[j]? = some vals[j] := List.getElem?_eq_getElem hj
      simp [Range.ref, hget] at hjk
  | elems d first last =>
    simp only [RangeArg.vals, Option.ite_none_right_eq_some, Option.some.injEq] at hvals
    obtain ⟨⟨hfirst, hlast⟩, rfl⟩ := hvals
    have hlen : (((f d).take last).drop first).length = last - first := by
      rw [List.length_drop, List.length_take]
      omega
    rcases Option.eq_none_or_eq_some (s.vecs d).begin with hnone | ⟨i, hd⟩
    · have hnil := (h.ok.null d hnone).1
      simp only [hnil, List.length_nil, Nat.le_zero_eq] at hlast
      obtain rfl : first = 0 := Nat.le_zero.mp (hfirst.trans hlast.le)
      refine ⟨.values [], by simp [RangeArg.range, h.ok.size_eq d, hnil, hlast, hnone], ⟨?_, fun j hj => ?_⟩,
        fun c place _ j hj => ?_⟩
      · simp [Range.size, hnil]
      · omega
      · omega
    · refine ⟨.elems i first last, by simp [RangeArg.range, h.ok.size_eq d, hfirst, hlast, hd],
        ⟨by rw [hlen]; rfl, fun j hj => ?_⟩, fun c place hclear j hj i' k hjk hc => ?_⟩
      · rw [hlen] at hj
        have hget : (f d)[first + j]? = some (f d)[first + j] := List.getElem?_eq_getElem (by omega)
        refine ⟨.elem i (first + j), _, rfl, ?_, .elem hd hget⟩
        rw [List.getElem?_drop, List.getElem?_take_of_lt (by omega), hget]
      · simp only [Range.ref, Option.some.injEq, Ref.elem.injEq] at hjk
        obtain ⟨rfl, rfl⟩ := hjk
        rcases hclear (hd.trans hc.symm) with heq | hshared | hplace
        · omega
        · exact .inl hshared
        · exact .inr ⟨first, last, hplace, hlen, rfl⟩

/-! ## A run -/

omit [Fintype ι] [DecidableEq ι] in
theorem Ref.isOwn_iff {v : MojVector} {ref : Ref α} : ref.isOwn v ↔ ∃ i k, ref = .elem i k ∧ v.begin = some i := by
  cases ref with
  | value a => simp [Ref.isOwn]
  | elem i k => simp [Ref.isOwn]

/-- **An operation on a clear state does with the vectors what it does with the lists.** -/
theorem Inv.step [Inhabited α] {op : Op ι α} (h : Inv s f) (hclear : Clear s op) (hspec : specStep f op = some (f', err)) :
    ∃ s', MojVector.step s op = some (s', err) ∧ Inv s' f' := by
  have hok := h.ok
  cases op with
  | push c val =>
    obtain ⟨a, hval, hbecome⟩ := Option.bind_eq_some_iff.mp hspec
    obtain ⟨ref, href, his, hplace⟩ := h.exists_ref hval
    simp only [MojVector.step, href, Option.bind_eq_bind, Option.bind_some]
    refine h.returned hbecome (hok.push his fun hown => ?_)
    obtain ⟨i, k, hk, hc⟩ := Ref.isOwn_iff.mp hown
    exact hok.size_eq c ▸ hplace c _ hclear i k hk hc
  | append c range =>
    obtain ⟨vals, hvals, hbecome⟩ := Option.bind_eq_some_iff.mp hspec
    obtain ⟨r, hr, his, hplace⟩ := h.exists_range hvals
    simp only [MojVector.step, hr, Option.bind_eq_bind, Option.bind_some]
    refine h.returned hbecome (hok.append his fun j hj ref href hown => ?_)
    obtain ⟨i, k, rfl, hc⟩ := Ref.isOwn_iff.mp hown
    refine (hplace c _ hclear j hj i k href hc).imp_right ?_
    rintro ⟨first, last, hroom, hlen, -⟩
    rwa [hlen, ← hok.size_eq c]
  | insert c idx numElems val =>
    obtain ⟨a, hval, hinsert⟩ := Option.bind_eq_some_iff.mp hspec
    obtain ⟨hidx, hbecome⟩ := Option.ite_none_right_eq_some.mp hinsert
    obtain ⟨ref, href, his, hplace⟩ := h.exists_ref hval
    simp only [MojVector.step, href, Option.bind_eq_bind, Option.bind_some]
    refine h.returned hbecome (hok.insert hidx numElems his (fun hown => ?_) fun i k hk hc => ?_)
    · obtain ⟨i, k, hk, hc⟩ := Ref.isOwn_iff.mp hown
      have hroom := hplace c _ hclear i k hk hc
      rw [hok.size_eq c] at hroom
      tauto
    · have hlt := hplace c _ hclear i k hk hc
      tauto
  | insertRange c idx range =>
    obtain ⟨vals, hvals, hinsert⟩ := Option.bind_eq_some_iff.mp hspec
    obtain ⟨hidx, hbecome⟩ := Option.ite_none_right_eq_some.mp hinsert
    obtain ⟨r, hr, his, hplace⟩ := h.exists_range hvals
    simp only [MojVector.step, hr, Option.bind_eq_bind, Option.bind_some]
    refine h.returned hbecome (hok.insertRange hidx his (fun j hj ref href hown => ?_) fun j hj i k href hc => ?_)
    · obtain ⟨i, k, rfl, hc⟩ := Ref.isOwn_iff.mp hown
      refine (hplace c _ hclear j hj i k href hc).imp_right ?_
      rintro ⟨first, last, ⟨hroom, -⟩, hlen, -⟩
      rwa [hlen, ← hok.size_eq c]
    · refine (hplace c _ hclear j hj i k href hc).imp_right ?_
      rintro ⟨first, last, ⟨-, hout⟩, hlen, rfl⟩
      omega
  | erase c idx numElems =>
    by_cases hidx : idx + numElems ≤ (f c).length
    · rw [specStep, if_pos hidx] at hspec
      exact h.returnedErr hspec (hok.erase hidx (h.short c))
    · rw [specStep, if_neg hidx] at hspec
      cases hspec
      have herase := hok.erase_outOfRange (not_le.mp hidx) hclear
      refine ⟨s, ?_, h⟩
      simp [MojVector.step, herase, MojVector.returnedErr]
  | pop c =>
    simp only [specStep, Option.ite_none_left_eq_some, Bool.not_eq_true, List.isEmpty_eq_false_iff] at hspec
    have hpop := hok.pop hspec.1 (h.short c)
    simp only [MojVector.step]
    exact h.returnedErr hspec.2 hpop
  | resize c numElems val =>
    obtain ⟨a, hval, hbecome⟩ := Option.bind_eq_some_iff.mp hspec
    obtain ⟨ref, href, his, hplace⟩ := h.exists_ref hval
    simp only [MojVector.step, href, Option.bind_eq_bind, Option.bind_some]
    refine h.returnedErr hbecome (hok.resize numElems his (h.short c) fun hown => ?_)
    obtain ⟨i, k, hk, hc⟩ := Ref.isOwn_iff.mp hown
    exact hplace c _ hclear i k hk hc
  | reverse c => exact h.returned hspec (hok.reverse c)
  | clear c =>
    obtain ⟨h', v', hcall, hok', -⟩ := hok.clear c
    have hbecome : become f c [] = some (f', err) := hspec
    exact h.returned hbecome ⟨h', v', hcall, hok'⟩
  | assignRange c range =>
    obtain ⟨vals, hvals, hbecome⟩ := Option.bind_eq_some_iff.mp hspec
    obtain ⟨r, hr, his, hplace⟩ := h.exists_range hvals
    simp only [MojVector.step, hr, Option.bind_eq_bind, Option.bind_some]
    refine h.returned hbecome (hok.assignRange his fun j hj ref href hown => ?_)
    obtain ⟨i, k, rfl, hc⟩ := Ref.isOwn_iff.mp hown
    exact (hplace c _ hclear j hj i k href hc).resolve_right fun ⟨_, _, hfalse, _⟩ => hfalse
  | assign c rhs => exact h.returned hspec (hok.assign c rhs hclear)

theorem Inv.behaves [Inhabited α] {ops : List (Op ι α)} (h : Inv s f) (hclears : Clears s ops) : Behaves s f ops := by
  induction ops generalizing s f with
  | nil => trivial
  | cons op ops ih =>
    intro f' err hspec
    obtain ⟨s', hstep, hinv⟩ := h.step hclears.1 hspec
    exact ⟨s', hstep, hinv.shown, ih hinv (hclears.2 s' err hstep)⟩

/-- **Vectors are lists of their own in every run none of whose operations reaches a defect.** -/
theorem behaves_of_clears [Inhabited α] (ops : List (Op ι α)) (h : Clears (start ι α) ops) :
    Behaves (start ι α) (fun _ => []) ops :=
  inv_start.behaves h

/-- An array that is shared and then grown, and an element of a vector pushed to it. -/
theorem behaves_of_clears_shared :
    Behaves (start Bool Nat) (fun _ => [])
      [.append false (.values [1, 2, 3]), .assign true false, .insert true 1 2 (.value 9), .push false (.elem false 0)] := by
  refine behaves_of_clears _ ⟨trivial, fun s₁ err₁ h₁ => ⟨nofun, fun s₂ err₂ h₂ => ⟨trivial, fun s₃ err₃ h₃ => ⟨?_, ?_⟩⟩⟩⟩
  · cases h₁
    cases h₂
    cases h₃
    exact fun _ => .inr (by decide)
  · exact fun _ _ _ => trivial

/-- A vector that is assigned to itself is freed; so is the array with the element that is pushed; an element is moved before it
is read; the end of what is erased wraps around. -/
theorem not_behaves_aliased :
    ¬Behaves (start Unit Nat) (fun _ => []) [.push () (.value 1), .assign () ()] ∧
      ¬Behaves (start Unit Nat) (fun _ => []) [.resize () 8 (.value 1), .push () (.elem () 0)] ∧
      ¬Behaves (start Unit Nat) (fun _ => []) [.append () (.values [1, 2]), .insert () 0 1 (.elem () 1)] ∧
      ¬Behaves (start Unit Nat) (fun _ => []) [.push () (.value 1), .erase () (2 ^ 64 - 1) 1] := by
  refine ⟨fun h => ?_, fun h => ?_, fun h => ?_, fun h => ?_⟩
  · obtain ⟨s₁, hstep₁, -, hrest⟩ := h _ _ rfl
    cases hstep₁
    obtain ⟨s₂, hstep₂, -, -⟩ := hrest _ _ rfl
    cases hstep₂
  · obtain ⟨s₁, hstep₁, -, hrest⟩ := h _ _ rfl
    cases hstep₁
    obtain ⟨s₂, hstep₂, -, -⟩ := hrest _ _ rfl
    cases hstep₂
  · obtain ⟨s₁, hstep₁, -, hrest⟩ := h _ _ rfl
    cases hstep₁
    obtain ⟨s₂, hstep₂, hshown, -⟩ := hrest _ _ rfl
    cases hstep₂
    exact absurd ((hshown ()).2 0 (by decide)) (by decide)
  · obtain ⟨s₁, hstep₁, -, hrest⟩ := h _ _ rfl
    cases hstep₁
    obtain ⟨s₂, hstep₂, -, -⟩ := hrest _ _ rfl
    cases hstep₂

end MojVector

end Db8
