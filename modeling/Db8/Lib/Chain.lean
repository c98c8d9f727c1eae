import Mathlib

/-!
# Lib.Chain

Linked lists in a memory. The memory is given by what is stored at an address; `none` where nothing is.

* `Chain next p l`  — the nodes from `p` on, by their `next` pointers, are `l`.
* `Chain.unique`    — the memory fixes the list.
* `Chain.push`, `Chain.remove` — a node is linked in at the head, or unlinked.
* `nodesFrom`       — the list, by following the pointers, with fuel.
* `Linked`          — a list whose nodes also know where the pointer to them is stored.
* `Linked.push`, `Linked.removeHead`, `Linked.remove` — the same of such a list.
-/

namespace Lib

variable {ι ρ : Type*} {next next' : ι → Option (Option ι)} {p q : Option ι} {a b : ι} {l l₁ l₂ : List ι}

inductive Chain (next : ι → Option (Option ι)) : Option ι → List ι → Prop
  | nil : Chain next none []
  | cons {a : ι} {p : Option ι} {l : List ι} (hnext : next a = some p) (rest : Chain next p l) :
      Chain next (some a) (a :: l)

namespace Chain

theorem congr (h : Chain next p l) (hsame : ∀ a ∈ l, next' a = next a) : Chain next' p l := by
  induction h with
  | nil => exact .nil
  | cons hnext _ ih =>
    exact .cons ((hsame _ List.mem_cons_self).trans hnext) (ih fun a ha => hsame a (List.mem_cons_of_mem _ ha))

theorem unique (h : Chain next p l) (h' : Chain next p l₁) : l = l₁ := by
  induction h generalizing l₁ with
  | nil =>
    cases h'
    rfl
  | cons hnext _ ih =>
    cases h' with
    | cons hnext' rest' =>
      obtain rfl := Option.some.inj (hnext.symm.trans hnext')
      rw [ih rest']

/-- The part of a list from a node on. -/
theorem drop (h : Chain next p (l₁ ++ a :: l₂)) : ∃ q, next a = some q ∧ Chain next q l₂ := by
  induction l₁ generalizing p with
  | nil =>
    cases h with
    | cons hnext rest => exact ⟨_, hnext, rest⟩
  | cons b l₁ ih =>
    cases h with
    | cons _ rest => exact ih rest

theorem eq_head? (h : Chain next p l) : p = l.head? := by
  cases h with
  | nil => rfl
  | cons _ _ => rfl

theorem exists_next (h : Chain next p l) (ha : a ∈ l) : ∃ q, next a = some q := by
  obtain ⟨l₁, l₂, rfl⟩ := List.append_of_mem ha
  obtain ⟨q, hq, -⟩ := h.drop
  exact ⟨q, hq⟩

/-- A list that ends does not come back to a node. -/
theorem nodup (h : Chain next p l) : l.Nodup := by
  induction h with
  | nil => exact List.nodup_nil
  | @cons a p l hnext rest ih =>
    refine List.nodup_cons.mpr ⟨fun ha => ?_, ih⟩
    obtain ⟨l₁, l₂, rfl⟩ := List.append_of_mem ha
    obtain ⟨q, hq, htail⟩ := rest.drop
    obtain rfl := Option.some.inj (hnext.symm.trans hq)
    have hlen := congrArg List.length (rest.unique htail)
    simp only [List.length_append, List.length_cons] at hlen
    omega

theorem push (h : Chain next p l) (ha : next' a = some p) (hsame : ∀ b ∈ l, next' b = next b) :
    Chain next' (some a) (a :: l) := .cons ha (h.congr hsame)

/-- A node is unlinked: the one before it gets its `next`. -/
theorem remove (h : Chain next p (l₁ ++ b :: a :: l₂)) (hb : next' b = next a)
    (hsame : ∀ c ∈ l₁ ++ l₂, next' c = next c) : Chain next' p (l₁ ++ b :: l₂) := by
  induction l₁ generalizing p with
  | nil =>
    cases h with
    | cons _ rest =>
      cases rest with
      | cons hnext rest => exact .cons (hb.trans hnext) (rest.congr hsame)
  | cons x l₁ ih =>
    cases h with
    | cons hnext rest =>
      refine .cons ((hsame x List.mem_cons_self).trans hnext) (ih rest fun c hc => ?_)
      exact hsame c (List.mem_cons_of_mem _ hc)

end Chain

/-- Follows the pointers; `none` where there is no node, or no end within the fuel. -/
def nodesFrom (next : ι → Option (Option ι)) : Nat → Option ι → Option (List ι)
  | _, none => some []
  | 0, some _ => none
  | fuel + 1, some a => do
    let p ← next a
    let l ← nodesFrom next fuel p
    return a :: l

theorem Chain.nodesFrom_eq (h : Chain next p l) {fuel : Nat} (hfuel : l.length ≤ fuel) : nodesFrom next fuel p = some l := by
  induction h generalizing fuel with
  | nil => cases fuel <;> rfl
  | cons hnext _ ih =>
    cases fuel with
    | zero => simp at hfuel
    | succ fuel => simp [nodesFrom, hnext, ih (Nat.le_of_succ_le_succ hfuel)]

/-! ## Nodes that know where the pointer to them is -/

variable {ref ref' : ι → Option ρ} {of : ι → ρ} {r r' : ρ}

/-- The pointer to the first node is at `r`, and the pointer to the one behind `a` at `of a`. -/
inductive Linked (next : ι → Option (Option ι)) (ref : ι → Option ρ) (of : ι → ρ) : ρ → Option ι → List ι → Prop
  | nil {r : ρ} : Linked next ref of r none []
  | cons {r : ρ} {a : ι} {p : Option ι} {l : List ι} (hnext : next a = some p) (href : ref a = some r)
      (rest : Linked next ref of (of a) p l) : Linked next ref of r (some a) (a :: l)

namespace Linked

theorem chain (h : Linked next ref of r p l) : Chain next p l := by
  induction h with
  | nil => exact .nil
  | cons hnext _ _ ih => exact .cons hnext ih

theorem congr (h : Linked next ref of r p l) (hnext : ∀ a ∈ l, next' a = next a) (href : ∀ a ∈ l, ref' a = ref a) :
    Linked next' ref' of r p l := by
  induction h with
  | nil => exact .nil
  | cons hn hr _ ih =>
    exact .cons ((hnext _ List.mem_cons_self).trans hn) ((href _ List.mem_cons_self).trans hr)
      (ih (fun a ha => hnext a (List.mem_cons_of_mem _ ha)) fun a ha => href a (List.mem_cons_of_mem _ ha))

/-- The first node is told of a new place. -/
theorem relink (h : Linked next ref of r p l) (hhead : ∀ b, p = some b → ref' b = some r')
    (hnext : ∀ a ∈ l, next' a = next a) (href : ∀ a ∈ l, p ≠ some a → ref' a = ref a) :
    Linked next' ref' of r' p l := by
  have hnodup := h.chain.nodup
  cases h with
  | nil => exact .nil
  | @cons _ b p l hn hr rest =>
    refine .cons ((hnext b List.mem_cons_self).trans hn) (hhead b rfl) (rest.congr ?_ ?_)
    · exact fun a ha => hnext a (List.mem_cons_of_mem _ ha)
    · intro a ha
      refine href a (List.mem_cons_of_mem _ ha) fun he => ?_
      obtain rfl := Option.some.inj he
      exact (List.nodup_cons.mp hnodup).1 ha

theorem push (h : Linked next ref of r p l) (ha : next' a = some p) (hra : ref' a = some r')
    (hhead : ∀ b, p = some b → ref' b = some (of a)) (hnext : ∀ b ∈ l, next' b = next b)
    (href : ∀ b ∈ l, p ≠ some b → ref' b = ref b) : Linked next' ref' of r' (some a) (a :: l) :=
  .cons ha hra (h.relink hhead hnext href)

/-- What is stored at a node, by where it stands. -/
theorem drop (h : Linked next ref of r p (l₁ ++ a :: l₂)) :
    ∃ q, next a = some q ∧ ref a = some (match l₁.getLast? with | none => r | some b => of b) ∧
      Linked next ref of (of a) q l₂ := by
  induction l₁ generalizing p r with
  | nil =>
    cases h with
    | cons hnext href rest => exact ⟨_, hnext, href, rest⟩
  | cons x l₁ ih =>
    cases h with
    | cons _ _ rest =>
      obtain ⟨q, hq, href, hrest⟩ := ih rest
      refine ⟨q, hq, ?_, hrest⟩
      rw [href, List.getLast?_cons]
      cases l₁.getLast? <;> rfl

/-- The first node is unlinked. -/
theorem removeHead (h : Linked next ref of r p (a :: l)) (hq : next a = some q)
    (hhead : ∀ b, q = some b → ref' b = some r) (hnext : ∀ b ∈ l, next' b = next b)
    (href : ∀ b ∈ l, q ≠ some b → ref' b = ref b) : Linked next' ref' of r q l := by
  cases h with
  | cons hn _ rest =>
    obtain rfl := Option.some.inj (hn.symm.trans hq)
    exact rest.relink hhead hnext href

/-- A node behind another one is unlinked. -/
theorem remove (h : Linked next ref of r p (l₁ ++ b :: a :: l₂)) (hq : next a = some q) (hb : next' b = some q)
    (hhead : ∀ c, q = some c → ref' c = some (of b)) (hnext : ∀ c ∈ l₁ ++ l₂, next' c = next c)
    (href : ∀ c ∈ l₁ ++ b :: l₂, q ≠ some c → ref' c = ref c) : Linked next' ref' of r p (l₁ ++ b :: l₂) := by
  have hnodup := h.chain.nodup
  have hfirst : q = l₂.head? := by
    have hdrop := h.chain
    rw [List.append_cons] at hdrop
    obtain ⟨q', hq', hrest⟩ := hdrop.drop
    obtain rfl := Option.some.inj (hq.symm.trans hq')
    exact hrest.eq_head?
  induction l₁ generalizing p r with
  | nil =>
    cases h with
    | cons _ hr rest =>
      refine .cons hb ((href b List.mem_cons_self fun he => ?_).trans hr) ?_
      · have hmem : b ∈ l₂ := List.mem_of_mem_head? (hfirst ▸ he)
        exact (List.nodup_cons.mp hnodup).1 (List.mem_cons_of_mem _ hmem)
      · exact rest.removeHead hq hhead hnext fun c hc => href c (List.mem_cons_of_mem _ hc)
  | cons x l₁ ih =>
    cases h with
    | cons hn hr rest =>
      obtain ⟨hx, hnodup⟩ := List.nodup_cons.mp hnodup
      refine .cons ((hnext x List.mem_cons_self).trans hn) ((href x List.mem_cons_self fun he => ?_).trans hr) ?_
      · have hmem : x ∈ l₂ := List.mem_of_mem_head? (hfirst ▸ he)
        exact hx (by simp [hmem])
      · exact ih rest (fun c hc => hnext c (List.mem_cons_of_mem _ hc))
          (fun c hc => href c (List.mem_cons_of_mem _ hc)) hnodup

end Linked

end Lib
