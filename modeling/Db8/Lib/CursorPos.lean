import Db8.Lib.SortedSet

/-!
# Lib.CursorPos

Where a cursor over a sorted set can stand, and the order in which it gets there.

* `CursorPos`   — before the first key, on a key, or after the last one.
* `Toward fwd`  — the positions in the order of a forward or of a backward run; `⊤` is its end.
* `firstWith`   — the first key of a set with a property, in that order, with `firstWith_isLeast`.
-/

namespace Lib

inductive CursorPos (κ : Type*) where
  | beforeFirst
  | key (k : κ)
  | afterLast
  deriving DecidableEq

namespace CursorPos

variable {κ : Type*} [LinearOrder κ]

def toWith : CursorPos κ → WithBot (WithTop κ)
  | beforeFirst => ⊥
  | key k => ((k : WithTop κ) : WithBot (WithTop κ))
  | afterLast => ((⊤ : WithTop κ) : WithBot (WithTop κ))

theorem toWith_injective : Function.Injective (toWith : CursorPos κ → WithBot (WithTop κ)) := by
  intro p q h
  cases p <;> cases q <;> simp_all [toWith]

instance : LinearOrder (CursorPos κ) := LinearOrder.lift' toWith toWith_injective

theorem toWith_le {p q : CursorPos κ} : p.toWith ≤ q.toWith ↔ p ≤ q := Iff.rfl

theorem toWith_lt {p q : CursorPos κ} : p.toWith < q.toWith ↔ p < q := Iff.rfl

@[simp] theorem key_le_key {a b : κ} : key a ≤ key b ↔ a ≤ b := by
  rw [← toWith_le, toWith, toWith, WithBot.coe_le_coe, WithTop.coe_le_coe]

@[simp] theorem key_lt_key {a b : κ} : key a < key b ↔ a < b := by
  rw [← toWith_lt, toWith, toWith, WithBot.coe_lt_coe, WithTop.coe_lt_coe]

instance : BoundedOrder (CursorPos κ) where
  top := afterLast
  le_top p := by
    rw [← toWith_le]
    exact le_top
  bot := beforeFirst
  bot_le p := by
    rw [← toWith_le]
    exact bot_le

theorem top_def : (⊤ : CursorPos κ) = afterLast := rfl

theorem bot_def : (⊥ : CursorPos κ) = beforeFirst := rfl

end CursorPos

/-! ## Neighbours -/

section

variable {L : Type*} [LinearOrder L]

def IsNext [OrderTop L] (S : Set L) (p q : L) : Prop := IsLeast (insert ⊤ {x ∈ S | p < x}) q

namespace IsNext

variable [OrderTop L] {S T : Set L} {p q : L}

theorem mem (h : IsNext S p q) : q = ⊤ ∨ q ∈ S := h.1.imp id And.left

theorem le (h : IsNext S p q) : p ≤ q := by
  cases h.1 with
  | inl he => exact he ▸ le_top
  | inr hmem => exact hmem.2.le

theorem le_of_mem (h : IsNext S p q) {x : L} (hx : x ∈ S) (hlt : p < x) : q ≤ x := h.2 (.inr ⟨hx, hlt⟩)

theorem intro (hmem : q = ⊤ ∨ q ∈ S ∧ p < q) (hle : ∀ x ∈ S, p < x → q ≤ x) : IsNext S p q := by
  refine ⟨hmem, fun x hx => ?_⟩
  cases hx with
  | inl he => exact he ▸ le_top
  | inr hx => exact hle x hx.1 hx.2

theorem lt_of_ne_top (h : IsNext S p q) (hp : p ≠ ⊤) : p < q := by
  cases h.1 with
  | inl he => exact he ▸ lt_top_iff_ne_top.mpr hp
  | inr hmem => exact hmem.2

/-- An element other than the next one can go. -/
theorem diff {k : L} (h : IsNext S p q) (hne : q ≠ k) : IsNext (S \ {k}) p q :=
  intro (h.1.imp id fun hmem => ⟨⟨hmem.1, hne⟩, hmem.2⟩) fun _ hx hlt => h.le_of_mem hx.1 hlt

/-- Without the next element, the one after it is next. -/
theorem diff_next {k : L} (hk : k ≠ ⊤) (hp : p = k ∨ IsNext S p k) (h : IsNext S k q) :
    IsNext (S \ {k}) p q := by
  have hpk : p ≤ k := hp.elim le_of_eq le
  have hkq := h.lt_of_ne_top hk
  refine intro (h.1.imp id fun hmem => ⟨⟨hmem.1, hkq.ne'⟩, hpk.trans_lt hmem.2⟩) fun x hx hlt => ?_
  have hkx : k ≤ x := by
    cases hp with
    | inl he => exact he ▸ hlt.le
    | inr hnext => exact hnext.le_of_mem hx.1 hlt
  exact h.le_of_mem hx.1 (hkx.lt_of_ne fun he => hx.2 he.symm)

/-- An element that is not between can come. -/
theorem insert_of_not {k : L} (h : IsNext S p q) (hT : ∀ x, x ∈ T ↔ x ∈ S ∨ x = k) (hk : p < k → q ≤ k) :
    IsNext T p q := by
  refine intro (h.1.imp id fun hmem => ⟨(hT q).mpr (.inl hmem.1), hmem.2⟩) fun x hx hlt => ?_
  cases (hT x).mp hx with
  | inl hx => exact h.le_of_mem hx hlt
  | inr he => exact he ▸ hk (he ▸ hlt)

theorem unique {q' : L} (h : IsNext S p q) (h' : IsNext S p q') : q = q' := IsLeast.unique h h'

end IsNext

def IsPrev [OrderBot L] (S : Set L) (p q : L) : Prop := IsGreatest (insert ⊥ {x ∈ S | x < p}) q

/-- Between a position outside of the set and the next element there is nothing to turn back to. -/
theorem IsNext.isPrev_iff [BoundedOrder L] {S : Set L} {p c q : L} (hc : IsNext S p c) (hp : p ∉ S) :
    IsPrev S p q ↔ IsPrev S c q := by
  have hiff : ∀ x ∈ S, x < c ↔ x < p := by
    intro x hx
    refine ⟨fun hxc => ?_, fun hxp => hxp.trans_le hc.le⟩
    refine (lt_or_eq_of_le (le_of_not_gt fun hpx => ?_)).resolve_right fun he => hp (he ▸ hx)
    exact (hc.le_of_mem hx hpx).not_gt hxc
  have hset : {x ∈ S | x < p} = {x ∈ S | x < c} := by
    ext x
    exact and_congr_right fun hx => (hiff x hx).symm
  rw [IsPrev, IsPrev, hset]

end

/-! ## Direction -/

/-- The positions in the order a run in the given direction passes them. -/
def Toward (_fwd : Bool) (κ : Type*) := CursorPos κ

namespace Toward

variable {κ : Type*} {fwd : Bool}

def on (fwd : Bool) (p : CursorPos κ) : Toward fwd κ := p

@[simp] theorem on_inj {p q : CursorPos κ} : on fwd p = on fwd q ↔ p = q := Iff.rfl

/-- The end of a run in the given direction. -/
def finish : Bool → CursorPos κ
  | true => .afterLast
  | false => .beforeFirst

/-- The positions on the keys of a set. -/
def keysAt (fwd : Bool) (S : Set κ) : Set (Toward fwd κ) := {p | ∃ k ∈ S, p = on fwd (.key k)}

@[simp] theorem key_mem_keysAt {S : Set κ} {k : κ} : on fwd (.key k) ∈ keysAt fwd S ↔ k ∈ S := by
  constructor
  · intro ⟨j, hj, he⟩
    rw [on_inj] at he
    cases he
    exact hj
  · exact fun hk => ⟨k, hk, rfl⟩

theorem keysAt_mono {S T : Set κ} (h : S ⊆ T) : keysAt fwd S ⊆ keysAt fwd T := by
  intro x hx
  obtain ⟨k, hk, he⟩ := hx
  exact ⟨k, h hk, he⟩

theorem keysAt_subset_insert {S T : Set κ} {key : κ} (h : ∀ k ∈ T, k ∈ S ∨ k = key) :
    ∀ x ∈ keysAt fwd T, x ∈ keysAt fwd S ∨ x = on fwd (.key key) := by
  intro x hx
  obtain ⟨k, hk, he⟩ := hx
  cases h k hk with
  | inl hS => exact .inl ⟨k, hS, he⟩
  | inr hkey => exact .inr (hkey ▸ he)

theorem mem_keysAt_insert (fwd : Bool) {S T : Set κ} {key : κ} (h : ∀ k, k ∈ T ↔ k ∈ S ∨ k = key)
    (x : Toward fwd κ) : x ∈ keysAt fwd T ↔ x ∈ keysAt fwd S ∨ x = on fwd (.key key) := by
  refine ⟨keysAt_subset_insert (fun k => (h k).mp) x, fun hx => ?_⟩
  cases hx with
  | inl hx => exact keysAt_mono (fun k hk => (h k).mpr (.inl hk)) hx
  | inr he => exact ⟨key, (h key).mpr (.inr rfl), he⟩

theorem keysAt_union (S T : Set κ) : keysAt fwd (S ∪ T) = keysAt fwd S ∪ keysAt fwd T := by
  ext p
  constructor
  · intro ⟨k, hk, he⟩
    exact hk.imp (fun hk => ⟨k, hk, he⟩) fun hk => ⟨k, hk, he⟩
  · intro h
    cases h with
    | inl h => exact h.imp fun k hk => ⟨.inl hk.1, hk.2⟩
    | inr h => exact h.imp fun k hk => ⟨.inr hk.1, hk.2⟩

theorem keysAt_diff (S : Set κ) (k : κ) : keysAt fwd (S \ {k}) = keysAt fwd S \ {on fwd (.key k)} := by
  ext p
  constructor
  · intro ⟨j, hj, he⟩
    subst he
    refine ⟨key_mem_keysAt.mpr hj.1, fun h => hj.2 ?_⟩
    rw [Set.mem_singleton_iff, on_inj] at h
    cases h
    rfl
  · intro ⟨⟨j, hj, he⟩, hne⟩
    subst he
    refine key_mem_keysAt.mpr ⟨hj, fun h => hne ?_⟩
    rw [Set.mem_singleton_iff] at h ⊢
    rw [h]

variable [LinearOrder κ]

instance instLinearOrder : (fwd : Bool) → LinearOrder (Toward fwd κ)
  | true => inferInstanceAs (LinearOrder (CursorPos κ))
  | false => inferInstanceAs (LinearOrder (CursorPos κ)ᵒᵈ)

instance instBoundedOrder : (fwd : Bool) → BoundedOrder (Toward fwd κ)
  | true => inferInstanceAs (BoundedOrder (CursorPos κ))
  | false => inferInstanceAs (BoundedOrder (CursorPos κ)ᵒᵈ)

theorem on_not_lt {p q : CursorPos κ} : on (!fwd) p < on (!fwd) q ↔ on fwd q < on fwd p := by
  cases fwd <;> exact Iff.rfl

@[simp] theorem on_finish : on fwd (finish fwd : CursorPos κ) = ⊤ := by
  cases fwd <;> rfl

@[simp] theorem on_finish_not : on fwd (finish (!fwd) : CursorPos κ) = ⊥ := by
  cases fwd <;> rfl

theorem on_key_ne_top (k : κ) : on fwd (.key k) ≠ ⊤ := by
  rw [← on_finish, ne_eq, on_inj]
  cases fwd <;> simp [finish]

theorem on_key_ne_bot (k : κ) : on fwd (.key k) ≠ ⊥ := by
  rw [← on_finish_not, ne_eq, on_inj]
  cases fwd <;> simp [finish]

/-- The next key of the opposite direction is the previous one. -/
theorem isNext_not {S : Set κ} {p q : CursorPos κ} :
    IsNext (keysAt (!fwd) S) (on (!fwd) p) (on (!fwd) q) ↔ IsPrev (keysAt fwd S) (on fwd p) (on fwd q) := by
  cases fwd <;> exact Iff.rfl

end Toward

/-! ## Looking for a position -/

namespace SortedSet

variable {κ : Type*} [LinearOrder κ]

open Toward

/-- The keys in the order of a run. -/
def inOrder (s : SortedSet κ) : Bool → List κ
  | true => s.elems
  | false => s.elems.reverse

/-- The first key with a property, in the order of a run. -/
def firstWith (s : SortedSet κ) (fwd : Bool) (c : κ → Bool) : CursorPos κ :=
  ((s.inOrder fwd).find? c).elim (finish fwd) .key

theorem mem_inOrder {s : SortedSet κ} {fwd : Bool} {k : κ} : k ∈ s.inOrder fwd ↔ k ∈ s := by
  cases fwd
  · exact List.mem_reverse
  · exact Iff.rfl

theorem pairwise_inOrder (s : SortedSet κ) (fwd : Bool) :
    (s.inOrder fwd).Pairwise fun j k => on fwd (.key j) < on fwd (.key k) := by
  cases fwd
  · exact List.pairwise_reverse.mpr (s.sorted.imp fun h => CursorPos.key_lt_key.mpr h)
  · exact s.sorted.imp fun h => CursorPos.key_lt_key.mpr h

theorem firstWith_isLeast (s : SortedSet κ) (fwd : Bool) (c : κ → Bool) :
    IsLeast (insert ⊤ (keysAt fwd {k | k ∈ s ∧ c k = true})) (on fwd (s.firstWith fwd c)) := by
  unfold firstWith
  cases hfind : (s.inOrder fwd).find? c with
  | none =>
    rw [Option.elim_none, on_finish]
    refine ⟨.inl rfl, fun p hp => ?_⟩
    cases hp with
    | inl he => exact he.ge
    | inr hp =>
      obtain ⟨k, ⟨hk, hck⟩, rfl⟩ := hp
      exact absurd hck (by simpa using List.find?_eq_none.mp hfind k (mem_inOrder.mpr hk))
  | some k =>
    obtain ⟨hck, as, bs, hsplit, has⟩ := List.find?_eq_some_iff_append.mp hfind
    have hmem : k ∈ s.inOrder fwd := by simp [hsplit]
    refine ⟨.inr ⟨k, ⟨mem_inOrder.mp hmem, hck⟩, rfl⟩, fun p hp => ?_⟩
    cases hp with
    | inl he => exact he ▸ le_top
    | inr hp =>
      obtain ⟨j, ⟨hj, hcj⟩, rfl⟩ := hp
      have hpw := s.pairwise_inOrder fwd
      rw [hsplit, List.pairwise_append, List.pairwise_cons] at hpw
      have hj' : j ∈ s.inOrder fwd := mem_inOrder.mpr hj
      rw [hsplit, List.mem_append, List.mem_cons] at hj'
      obtain hjas | rfl | hjbs := hj'
      · exact absurd hcj (by simpa using has j hjas)
      · exact le_rfl
      · exact (hpw.2.1.1 j hjbs).le

def after (s : SortedSet κ) (fwd : Bool) (p : CursorPos κ) : CursorPos κ :=
  s.firstWith fwd fun k => on fwd p < on fwd (.key k)

def atOrAfter (s : SortedSet κ) (fwd : Bool) (p : CursorPos κ) : CursorPos κ :=
  s.firstWith fwd fun k => on fwd p ≤ on fwd (.key k)

def toEdge (s : SortedSet κ) (fwd : Bool) : CursorPos κ := s.firstWith fwd fun _ => true

theorem after_isNext (s : SortedSet κ) (fwd : Bool) (p : CursorPos κ) :
    IsNext (keysAt fwd {k | k ∈ s}) (on fwd p) (on fwd (s.after fwd p)) := by
  have h := s.firstWith_isLeast fwd fun k => on fwd p < on fwd (.key k)
  refine IsNext.intro (h.1.imp id fun hmem => ?_) fun x hx hlt => ?_
  · obtain ⟨k, ⟨hk, hlt⟩, he⟩ := hmem
    exact ⟨⟨k, hk, he⟩, he ▸ of_decide_eq_true hlt⟩
  · obtain ⟨k, hk, rfl⟩ := hx
    exact h.2 (.inr ⟨k, ⟨hk, decide_eq_true hlt⟩, rfl⟩)

theorem atOrAfter_isLeast (s : SortedSet κ) (fwd : Bool) (p : CursorPos κ) :
    IsLeast (insert ⊤ {x ∈ keysAt fwd {k | k ∈ s} | on fwd p ≤ x}) (on fwd (s.atOrAfter fwd p)) := by
  have h := s.firstWith_isLeast fwd fun k => on fwd p ≤ on fwd (.key k)
  refine ⟨h.1.imp id fun hmem => ?_, fun x hx => ?_⟩
  · obtain ⟨k, ⟨hk, hle⟩, he⟩ := hmem
    exact ⟨⟨k, hk, he⟩, he ▸ of_decide_eq_true hle⟩
  · refine h.2 (hx.imp id fun hx => ?_)
    obtain ⟨⟨k, hk, rfl⟩, hle⟩ := hx
    exact ⟨k, ⟨hk, decide_eq_true hle⟩, rfl⟩

theorem toEdge_isLeast (s : SortedSet κ) (fwd : Bool) :
    IsLeast (insert ⊤ {x ∈ keysAt fwd {k | k ∈ s} | ⊥ ≤ x}) (on fwd (s.toEdge fwd)) := by
  have h := s.firstWith_isLeast fwd fun _ => true
  refine ⟨h.1.imp id fun hmem => ?_, fun x hx => h.2 (hx.imp id fun hx => ?_)⟩
  · obtain ⟨k, ⟨hk, _⟩, he⟩ := hmem
    exact ⟨⟨k, hk, he⟩, bot_le⟩
  · obtain ⟨⟨k, hk, rfl⟩, _⟩ := hx
    exact ⟨k, ⟨hk, rfl⟩, rfl⟩

theorem firstWith_congr (s : SortedSet κ) (fwd : Bool) {c d : κ → Bool} (h : ∀ k ∈ s, c k = d k) :
    s.firstWith fwd c = s.firstWith fwd d := by
  unfold firstWith
  have hfind : ∀ ks : List κ, (∀ k ∈ ks, c k = d k) → ks.find? c = ks.find? d := by
    intro ks hks
    induction ks with
    | nil => rfl
    | cons k ks ih =>
      rw [List.find?_cons, List.find?_cons, hks k List.mem_cons_self, ih fun j hj => hks j (List.mem_cons_of_mem k hj)]
  rw [hfind _ fun k hk => h k (mem_inOrder.mp hk)]

/-- Either no key has the property, or the first one is found. -/
theorem firstWith_cases (s : SortedSet κ) (fwd : Bool) (c : κ → Bool) :
    (s.firstWith fwd c = finish fwd ∧ ∀ k ∈ s, c k = false) ∨
    ∃ k ∈ s, s.firstWith fwd c = .key k ∧ c k = true ∧ ∀ j ∈ s, c j = true → on fwd (.key k) ≤ on fwd (.key j) := by
  have hleast := s.firstWith_isLeast fwd c
  unfold firstWith at hleast ⊢
  cases hfind : (s.inOrder fwd).find? c with
  | none => exact .inl ⟨rfl, fun k hk => by simpa using List.find?_eq_none.mp hfind k (mem_inOrder.mpr hk)⟩
  | some k =>
    rw [hfind, Option.elim_some] at hleast
    have hmem : k ∈ s := mem_inOrder.mp (List.mem_of_find?_eq_some hfind)
    exact .inr ⟨k, hmem, rfl, List.find?_some hfind, fun j hj hcj => hleast.2 (.inr ⟨j, ⟨hj, hcj⟩, rfl⟩)⟩

/-- The first of the keys with a property comes before the rest of them. -/
theorem filter_inOrder_eq_cons {s : SortedSet κ} {fwd : Bool} {P : κ → Prop} [DecidablePred P] {k : κ} (hk : k ∈ s)
    (hP : P k) (hfirst : ∀ j ∈ s, P j → on fwd (.key k) ≤ on fwd (.key j)) :
    (s.inOrder fwd).filter P = k :: (s.inOrder fwd).filter fun j => P j ∧ on fwd (.key k) < on fwd (.key j) := by
  obtain ⟨as, bs, hsplit⟩ := List.append_of_mem (mem_inOrder.mpr hk : k ∈ s.inOrder fwd)
  have hpw := s.pairwise_inOrder fwd
  have hmem : ∀ j ∈ as ++ k :: bs, j ∈ s := fun j hj => mem_inOrder.mp (hsplit ▸ hj)
  rw [hsplit, List.pairwise_append, List.pairwise_cons] at hpw
  obtain ⟨-, ⟨hbs, -⟩, has⟩ := hpw
  have hnone : ∀ j ∈ as, ¬P j := fun j hj hPj =>
    (has j hj k List.mem_cons_self).not_ge (hfirst j (hmem j (List.mem_append_left _ hj)) hPj)
  have hnone' : ∀ j ∈ as, ¬(P j ∧ on fwd (.key k) < on fwd (.key j)) := fun j hj h => hnone j hj h.1
  have hleft : as.filter P = [] := List.filter_eq_nil_iff.mpr fun j hj => by simpa using hnone j hj
  have hleft' : as.filter (fun j => P j ∧ on fwd (.key k) < on fwd (.key j)) = [] :=
    List.filter_eq_nil_iff.mpr fun j hj => by simpa using hnone' j hj
  have hright : bs.filter P = bs.filter fun j => P j ∧ on fwd (.key k) < on fwd (.key j) :=
    List.filter_congr fun j hj => by simp [hbs j hj]
  rw [hsplit, List.filter_append, List.filter_append, hleft, hleft', List.nil_append, List.nil_append,
    List.filter_cons_of_pos (by simpa using hP), List.filter_cons_of_neg (by simp), hright]

end SortedSet

end Lib
