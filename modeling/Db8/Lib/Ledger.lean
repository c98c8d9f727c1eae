import Mathlib

/-!
# Lib.Ledger

Accounts that belong to groups, and amounts that are posted to accounts.

* `total`      — what the accounts of a group hold together.
* `post`       — amounts added to accounts, one after the other.
* `post_apply` — an account grows by what is posted to it.
* `total_post` — the total of a group grows by what is posted to its accounts.
* `write_eq_post` — writing the balances that were read, with the amounts added, posts the amounts.
* `upsert`     — a list with one entry for each key, with `lookup_upsert`, and `sum_upsert` and
  `sum_except` for the sums over it.
-/

namespace Lib

namespace Ledger

variable {α κ γ : Type*} [DecidableEq κ] [DecidableEq γ]

def total (accounts : List α) (key : α → κ) (group : α → Option γ) (balance : κ → Int) (g : γ) : Int :=
  (accounts.map fun a => if group a = some g then balance (key a) else 0).sum

def post (balance : κ → Int) (postings : List (κ × Int)) : κ → Int :=
  postings.foldl (fun balance p => Function.update balance p.1 (balance p.1 + p.2)) balance

/-- An account grows by what is posted to it. -/
theorem post_apply (balance : κ → Int) (postings : List (κ × Int)) (k : κ) :
    post balance postings k = balance k + (postings.map fun p => if p.1 = k then p.2 else 0).sum := by
  induction postings generalizing balance with
  | nil => simp [post]
  | cons p postings ih =>
    have hpost : post balance (p :: postings) = post (Function.update balance p.1 (balance p.1 + p.2)) postings := rfl
    rw [hpost, ih, List.map_cons, List.sum_cons, Function.update_apply]
    by_cases hk : p.1 = k
    · rw [if_pos hk.symm, if_pos hk, hk]
      omega
    · rw [if_neg (Ne.symm hk), if_neg hk]
      omega

variable {accounts : List α} {key : α → κ} {group : α → Option γ} {balance : κ → Int} {g : γ}

/-- An account that is not on the list counts for no group. -/
theorem total_update_of_not_mem {k : κ} (hk : k ∉ accounts.map key) (n : Int) :
    total accounts key group (Function.update balance k n) g = total accounts key group balance g := by
  unfold total
  congr 1
  refine List.map_congr_left fun a ha => ?_
  have hne : key a ≠ k := fun he => hk (he ▸ List.mem_map_of_mem ha)
  rw [Function.update_of_ne hne]

theorem total_update (hnodup : (accounts.map key).Nodup) {a : α} (ha : a ∈ accounts) (d : Int) :
    total accounts key group (Function.update balance (key a) (balance (key a) + d)) g =
      total accounts key group balance g + if group a = some g then d else 0 := by
  induction accounts with
  | nil => cases ha
  | cons b accounts ih =>
    obtain ⟨hb, hrest⟩ := List.nodup_cons.mp hnodup
    have hcons : ∀ f : κ → Int, total (b :: accounts) key group f g =
        (if group b = some g then f (key b) else 0) + total accounts key group f g := fun f => rfl
    rw [hcons, hcons]
    cases List.mem_cons.mp ha with
    | inl he =>
      subst he
      rw [total_update_of_not_mem hb, Function.update_self]
      split_ifs
      · omega
      · omega
    | inr hmem =>
      have hne : key b ≠ key a := fun he => hb (he ▸ List.mem_map_of_mem hmem)
      rw [Function.update_of_ne hne, ih hrest hmem]
      omega

/-- Every posting goes to an account on the list, and is charged to the group of that account. -/
theorem total_post (group : α → Option γ) (balance : κ → Int) (g : γ) (hnodup : (accounts.map key).Nodup)
    (postings : List (κ × Int × Option γ))
    (h : ∀ p ∈ postings, ∃ a ∈ accounts, key a = p.1 ∧ group a = p.2.2) :
    total accounts key group (post balance (postings.map fun p => (p.1, p.2.1))) g =
      total accounts key group balance g +
        (postings.map fun p => if p.2.2 = some g then p.2.1 else 0).sum := by
  induction postings generalizing balance with
  | nil => simp [post]
  | cons p postings ih =>
    obtain ⟨a, ha, hkey, hgroup⟩ := h p List.mem_cons_self
    have hpost : post balance ((p :: postings).map fun p => (p.1, p.2.1)) =
        post (Function.update balance p.1 (balance p.1 + p.2.1)) (postings.map fun p => (p.1, p.2.1)) := rfl
    rw [hpost, ih _ fun q hq => h q (List.mem_cons_of_mem _ hq), ← hkey, total_update hnodup ha, hgroup,
      List.map_cons, List.sum_cons]
    omega

/-- New balances in place of the old ones. -/
def write (balance : κ → Int) (puts : List (κ × Int)) : κ → Int :=
  puts.foldl (fun balance p => Function.update balance p.1 p.2) balance

/-- Balances that are read before the first amount is posted are still those of their accounts when it is their turn:
each account has one amount. -/
theorem write_eq_post {balance read : κ → Int} {postings : List (κ × Int)} (hnodup : (postings.map Prod.fst).Nodup)
    (hread : ∀ p ∈ postings, read p.1 = balance p.1) :
    write balance (postings.map fun p => (p.1, read p.1 + p.2)) = post balance postings := by
  induction postings generalizing balance with
  | nil => rfl
  | cons p postings ih =>
    obtain ⟨hp, hrest⟩ := List.nodup_cons.mp hnodup
    have hwrite : write balance ((p :: postings).map fun p => (p.1, read p.1 + p.2)) =
        write (Function.update balance p.1 (read p.1 + p.2)) (postings.map fun p => (p.1, read p.1 + p.2)) := rfl
    rw [hwrite, ih hrest fun q hq => ?_, hread p List.mem_cons_self]
    · rfl
    · have hne : q.1 ≠ p.1 := fun he => hp (he ▸ List.mem_map_of_mem hq)
      rw [Function.update_of_ne hne, hread q (List.mem_cons_of_mem p hq)]

end Ledger

/-! ## One entry for each key -/

section Upsert

variable {α κ : Type*} [DecidableEq κ] (key : α → κ)

/-- The entry of the same key is replaced. -/
def upsert (a : α) : List α → List α
  | [] => [a]
  | b :: bs => if key b = key a then a :: bs else b :: upsert a bs

def lookup (k : κ) (as : List α) : Option α := as.find? fun a => key a = k

variable {key} {a b : α} {as : List α} {k : κ}

theorem mem_upsert (h : b ∈ upsert key a as) : b = a ∨ b ∈ as := by
  induction as with
  | nil => exact .inl (List.mem_singleton.mp h)
  | cons c as ih =>
    unfold upsert at h
    split_ifs at h
    · exact (List.mem_cons.mp h).imp id (List.mem_cons_of_mem c)
    · cases List.mem_cons.mp h with
      | inl he => exact .inr (he ▸ List.mem_cons_self)
      | inr hmem => exact (ih hmem).imp id (List.mem_cons_of_mem c)

theorem upsert_ne_nil : upsert key a as ≠ [] := by
  cases as with
  | nil => exact List.cons_ne_nil a []
  | cons b as =>
    unfold upsert
    split_ifs
    · exact List.cons_ne_nil _ _
    · exact List.cons_ne_nil _ _

theorem mem_of_lookup (h : lookup key k as = some a) : a ∈ as ∧ key a = k :=
  ⟨List.mem_of_find?_eq_some h, by simpa using List.find?_some h⟩

theorem lookup_map (f : α → α) (hf : ∀ a, key (f a) = key a) (k : κ) (as : List α) :
    lookup key k (as.map f) = (lookup key k as).map f := by
  unfold lookup
  rw [List.find?_map]
  congr 2
  funext a
  simp only [Function.comp_apply, hf]

theorem lookup_upsert (a : α) (as : List α) (k : κ) :
    lookup key k (upsert key a as) = if key a = k then some a else lookup key k as := by
  induction as with
  | nil =>
    by_cases hk : key a = k
    · simp [upsert, lookup, hk]
    · simp [upsert, lookup, hk]
  | cons b as ih =>
    by_cases hb : key b = key a
    · by_cases hk : key a = k
      · simp [upsert, lookup, hb, hk]
      · simp [upsert, lookup, hb, hk]
    · rw [upsert, if_neg hb]
      by_cases hk : key b = k
      · have hne : key a ≠ k := fun he => hb (hk.trans he.symm)
        simp [lookup, hk, hne]
      · have htail : ∀ xs : List α, lookup key k (b :: xs) = lookup key k xs := by
          intro xs
          simp [lookup, hk]
        rw [htail, htail, ih]

/-- Replacing an entry changes a sum by what the entry and the one it replaces amount to. -/
theorem sum_upsert (f : α → Int) (a : α) (as : List α) :
    ((upsert key a as).map f).sum + ((lookup key (key a) as).map f).getD 0 = (as.map f).sum + f a := by
  induction as with
  | nil => simp [upsert, lookup]
  | cons b as ih =>
    by_cases hb : key b = key a
    · simp only [upsert, lookup, hb, if_true, List.map_cons, List.sum_cons, List.find?_cons, decide_true,
        Option.map_some, Option.getD_some]
      omega
    · have hlookup : lookup key (key a) (b :: as) = lookup key (key a) as := by
        simp [lookup, hb]
      rw [hlookup, upsert, if_neg hb, List.map_cons, List.map_cons, List.sum_cons, List.sum_cons]
      omega

theorem map_upsert (a : α) (as : List α) :
    (upsert key a as).map key = if key a ∈ as.map key then as.map key else as.map key ++ [key a] := by
  induction as with
  | nil => rfl
  | cons b as ih =>
    by_cases hb : key b = key a
    · simp [upsert, hb]
    · have hmem : key a ∈ (b :: as).map key ↔ key a ∈ as.map key := by
        rw [List.map_cons, List.mem_cons, or_iff_right (Ne.symm hb)]
      simp only [upsert, if_neg hb, List.map_cons, ih] at hmem ⊢
      simp only [hmem]
      split_ifs
      · rfl
      · rfl

theorem nodup_upsert (a : α) (h : (as.map key).Nodup) : ((upsert key a as).map key).Nodup := by
  rw [map_upsert]
  split_ifs with ha
  · exact h
  · exact List.concat_eq_append ▸ h.concat ha

/-- Two sums over a list differ by one entry, when what they add up differs there only. -/
theorem sum_except {f g : α → Int} (hnodup : (as.map key).Nodup) (h : lookup key k as = some a)
    (hfg : ∀ b ∈ as, key b ≠ k → g b = f b) : (as.map g).sum + f a = (as.map f).sum + g a := by
  induction as with
  | nil => cases h
  | cons b as ih =>
    obtain ⟨hb, hrest⟩ := List.nodup_cons.mp hnodup
    rw [List.map_cons, List.map_cons, List.sum_cons, List.sum_cons]
    by_cases hk : key b = k
    · have ha : a = b := by
        simpa [lookup, hk] using h.symm
      have hsame : as.map g = as.map f := by
        refine List.map_congr_left fun c hc => hfg c (List.mem_cons_of_mem b hc) fun he => ?_
        exact hb (hk.trans he.symm ▸ List.mem_map_of_mem hc)
      rw [hsame, ha]
      omega
    · have htail : lookup key k as = some a := by
        simpa [lookup, hk] using h
      have := ih hrest htail fun c hc => hfg c (List.mem_cons_of_mem b hc)
      rw [hfg b List.mem_cons_self hk]
      omega

theorem sum_filter (p : α → Bool) (f : α → Int) (as : List α) :
    ((as.filter p).map f).sum = (as.map fun a => if p a then f a else 0).sum := by
  induction as with
  | nil => rfl
  | cons a as ih =>
    cases hp : p a with
    | true => simp [hp, ih]
    | false => simp [hp, ih]

end Upsert

end Lib
