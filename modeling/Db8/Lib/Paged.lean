import Mathlib

/-!
# Lib.Paged

Entries that are read page by page, where a page knows only what it has seen itself.

* `run`            — an entry is passed over if its owner was seen on the page, or its value is the last one on the page.
* `news`           — the values of a list, each once and the last new one first.
* `PassedOver`     — what has to be true of an entry whose value was there before.
* `run_eq_firsts`  — where that is true of each such entry, the pages together are the first entries of their values.
* `take_run`       — up to the end of the first page the limit plays no part.
-/

namespace Lib

namespace Paged

variable {α β : Type*}

/-- A page: the room left on it, the owners seen on it and the last value on it. -/
structure State (α β : Type*) where
  room : Nat
  seen : List α
  last : Option β

def start (limit : Nat) : State α β := ⟨limit, [], none⟩

section Values

variable [DecidableEq β]

/-- The entries of all pages. The entry that fills a page is followed by the next page. -/
def run [DecidableEq α] (limit : Nat) : State α β → List (α × β) → List (α × β)
  | _, [] => []
  | s, e :: entries =>
    if e.1 ∈ s.seen then run limit s entries
    else if s.last = some e.2 then run limit { s with seen := e.1 :: s.seen } entries
    else e :: run limit (if s.room = 1 then start limit else ⟨s.room - 1, e.1 :: s.seen, some e.2⟩) entries

/-- The first entries of the values that are not among the old ones. -/
def firsts : List β → List (α × β) → List (α × β)
  | _, [] => []
  | old, e :: entries => if e.2 ∈ old then firsts old entries else e :: firsts (e.2 :: old) entries

/-- The values of the entries, each once and the last new one first. -/
def news (entries : List (α × β)) : List β := (entries.map Prod.snd).reverse.dedup

theorem mem_news {entries : List (α × β)} {v : β} : v ∈ news entries ↔ v ∈ entries.map Prod.snd := by
  rw [news, List.mem_dedup, List.mem_reverse]

theorem news_concat (entries : List (α × β)) (e : α × β) :
    news (entries ++ [e]) = if e.2 ∈ entries.map Prod.snd then news entries else e.2 :: news entries := by
  rw [news, List.map_append, List.reverse_append]
  change (e.2 :: (entries.map Prod.snd).reverse).dedup = _
  split_ifs with h
  · exact List.dedup_cons_of_mem (List.mem_reverse.mpr h)
  · exact List.dedup_cons_of_notMem fun hmem => h (List.mem_reverse.mp hmem)

theorem length_news_le (entries rest : List (α × β)) : (news entries).length ≤ (news (entries ++ rest)).length := by
  refine (List.nodup_dedup _).length_le_of_subset fun v hv => ?_
  have hmem : v ∈ entries.map Prod.snd := mem_news.mp hv
  refine mem_news.mpr ?_
  rw [List.map_append]
  exact List.mem_append_left _ hmem

/-- An entry with the owner is among the entries of the page that is being read behind them. -/
def SeenOnPage (limit : Nat) (entries : List (α × β)) (owner : α) : Prop :=
  ∃ before e behind, entries = before ++ e :: behind ∧ e.1 = owner ∧
    (news before).length / limit = (news entries).length / limit

/-- The value of the entry was there before: the page does not begin with the entry, and the value is the last new one or
the owner has been seen on the page. -/
def PassedOver (limit : Nat) (entries : List (α × β)) (e : α × β) : Prop :=
  (news entries).length % limit ≠ 0 ∧ ((news entries).head? = some e.2 ∨ SeenOnPage limit entries e.1)

/-- Every entry of the rest whose value was there before is passed over. -/
def KeptBehind (limit : Nat) (entries rest : List (α × β)) : Prop :=
  ∀ before e behind, rest = before ++ e :: behind → e.2 ∈ (entries ++ before).map Prod.snd →
    PassedOver limit (entries ++ before) e

/-- Every entry whose value was there before is passed over. -/
abbrev Kept (limit : Nat) (entries : List (α × β)) : Prop := KeptBehind limit [] entries

omit [DecidableEq β] in
/-- Where an entry stands behind which another one is put. -/
theorem exists_split_concat {entries : List (α × β)} {e : α × β} {P : List (α × β) → α × β → Prop} :
    (∃ before e' behind, entries ++ [e] = before ++ e' :: behind ∧ P before e') ↔
      (∃ before e' behind, entries = before ++ e' :: behind ∧ P before e') ∨ P entries e := by
  constructor
  · intro ⟨before, e', behind, heq, hP⟩
    cases List.eq_nil_or_concat behind with
    | inl hnil =>
      rw [hnil] at heq
      obtain ⟨hentries, he⟩ := List.append_inj' heq rfl
      obtain rfl := List.singleton_injective he
      exact .inr (hentries ▸ hP)
    | inr hconcat =>
      obtain ⟨init, last, hbehind⟩ := hconcat
      rw [hbehind, List.concat_eq_append, ← List.cons_append, ← List.append_assoc] at heq
      exact .inl ⟨before, e', init, (List.append_inj' heq rfl).1, hP⟩
  · intro h
    cases h with
    | inl h =>
      obtain ⟨before, e', behind, heq, hP⟩ := h
      exact ⟨before, e', behind ++ [e], by rw [heq, List.append_assoc, List.cons_append], hP⟩
    | inr hP => exact ⟨entries, e, [], rfl, hP⟩

/-! ## What a page knows -/

/-- What the page knows after entries of which none was returned for a value that was there before. -/
structure Inv (limit : Nat) (entries : List (α × β)) (s : State α β) : Prop where
  room : s.room = limit - (news entries).length % limit
  seen : ∀ owner, owner ∈ s.seen ↔ SeenOnPage limit entries owner
  fresh : (news entries).length % limit = 0 → s.seen = []
  last : s.last = if (news entries).length % limit = 0 then none else (news entries).head?

theorem inv_start (limit : Nat) : Inv limit ([] : List (α × β)) (start limit) where
  room := by simp [start, news]
  seen owner := by simp [start, SeenOnPage]
  fresh _ := rfl
  last := by simp [start, news]

theorem seenOnPage_concat {limit : Nat} {entries : List (α × β)} {e : α × β} {owner : α}
    (hpage : (news (entries ++ [e])).length / limit = (news entries).length / limit) :
    SeenOnPage limit (entries ++ [e]) owner ↔ SeenOnPage limit entries owner ∨ e.1 = owner := by
  unfold SeenOnPage
  rw [@exists_split_concat _ _ _ _ (fun before e' => e'.1 = owner ∧
    (news before).length / limit = (news (entries ++ [e])).length / limit), hpage]
  simp

section Step

variable {limit : Nat} {entries : List (α × β)} {s : State α β} {e : α × β}

theorem length_news_new (hnew : e.2 ∉ entries.map Prod.snd) :
    (news (entries ++ [e])).length = (news entries).length + 1 := by
  rw [news_concat, if_neg hnew, List.length_cons]

/-- A new value takes the room of one. -/
theorem Inv.returned (h : Inv limit entries s) (hlimit : 0 < limit) (hnew : e.2 ∉ entries.map Prod.snd) :
    Inv limit (entries ++ [e]) (if s.room = 1 then start limit else ⟨s.room - 1, e.1 :: s.seen, some e.2⟩) := by
  have hroom := h.room
  have hmod := Nat.mod_lt (news entries).length hlimit
  have hlength := length_news_new hnew
  have hdiv := Nat.div_add_mod (news entries).length limit
  by_cases hfull : s.room = 1
  · -- the page is full
    have hlast : (news entries).length % limit = limit - 1 := by omega
    have hmul : (news entries).length + 1 = limit * ((news entries).length / limit + 1) := by
      rw [Nat.mul_add, Nat.mul_one]
      omega
    have hzero : (news (entries ++ [e])).length % limit = 0 := by
      rw [hlength, hmul, Nat.mul_mod_right]
    have hnext : (news (entries ++ [e])).length / limit = (news entries).length / limit + 1 := by
      rw [hlength, hmul, Nat.mul_div_cancel_left _ hlimit]
    rw [if_pos hfull]
    refine ⟨by rw [hzero]; rfl, fun owner => ⟨fun hmem => absurd hmem List.not_mem_nil, ?_⟩, fun _ => rfl, by rw [if_pos hzero]; rfl⟩
    intro hseen
    unfold SeenOnPage at hseen
    rw [@exists_split_concat _ _ _ _ (fun before e' => e'.1 = owner ∧
      (news before).length / limit = (news (entries ++ [e])).length / limit), hnext] at hseen
    have hle : ∀ before, before <+: entries → (news before).length / limit ≤ (news entries).length / limit := by
      intro before hprefix
      obtain ⟨rest, rfl⟩ := hprefix
      exact Nat.div_le_div_right (length_news_le before rest)
    cases hseen with
    | inl hseen =>
      obtain ⟨before, e', behind, heq, -, hpage⟩ := hseen
      have := hle before ⟨e' :: behind, heq.symm⟩
      omega
    | inr hseen => omega
  · have hmodNew : ((news entries).length + 1) % limit = (news entries).length % limit + 1 := by
      rw [Nat.add_mod_eq_ite]
      have hone : 1 % limit = 1 := Nat.mod_eq_of_lt (by omega)
      rw [hone, if_neg (by omega)]
    have hdivNew : ((news entries).length + 1) / limit = (news entries).length / limit := by
      have hdiv' := Nat.div_add_mod ((news entries).length + 1) limit
      rw [hmodNew] at hdiv'
      have hmul : limit * (((news entries).length + 1) / limit) = limit * ((news entries).length / limit) := by omega
      exact Nat.eq_of_mul_eq_mul_left hlimit hmul
    rw [if_neg hfull]
    refine ⟨?_, fun owner => ?_, ?_, ?_⟩
    · rw [hlength, hmodNew]
      change s.room - 1 = _
      omega
    · rw [seenOnPage_concat (by rw [hlength, hdivNew]), ← h.seen owner, List.mem_cons, or_comm, eq_comm]
    · intro hzero
      rw [hlength, hmodNew] at hzero
      omega
    · rw [hlength, hmodNew, if_neg (Nat.succ_ne_zero _), news_concat, if_neg hnew]
      rfl

/-- An entry that is passed over. -/
theorem Inv.passed (h : Inv limit entries s) (hold : e.2 ∈ entries.map Prod.snd) (hpassed : PassedOver limit entries e)
    {seen : List α} (hseen : ∀ owner, owner ∈ seen ↔ owner ∈ s.seen ∨ e.1 = owner) :
    Inv limit (entries ++ [e]) { s with seen } := by
  have hnews : news (entries ++ [e]) = news entries := by rw [news_concat, if_pos hold]
  refine ⟨by rw [hnews]; exact h.room, fun owner => ?_, fun hzero => absurd (hnews ▸ hzero) hpassed.1, by rw [hnews]; exact h.last⟩
  rw [seenOnPage_concat (by rw [hnews]), hseen, h.seen]

end Step

end Values

/-! ## All pages -/

/-- Entries of one owner have one value. -/
def Consistent (entries : List (α × β)) : Prop := ∀ e ∈ entries, ∀ e' ∈ entries, e.1 = e'.1 → e.2 = e'.2

theorem consistent_shift {entries rest : List (α × β)} {e : α × β} (h : Consistent (entries ++ e :: rest)) :
    Consistent (entries ++ [e] ++ rest) := by
  rwa [List.append_assoc, List.singleton_append]

variable [DecidableEq β]

theorem SeenOnPage.exists_mem {limit : Nat} {entries : List (α × β)} {owner : α} (h : SeenOnPage limit entries owner) :
    ∃ e ∈ entries, e.1 = owner := by
  obtain ⟨before, e, behind, rfl, howner, -⟩ := h
  exact ⟨e, List.mem_append_right _ List.mem_cons_self, howner⟩

variable [DecidableEq α]

/-- A new value is returned. -/
theorem run_new {limit : Nat} {entries rest : List (α × β)} {s : State α β} {e : α × β} (h : Inv limit entries s)
    (hcons : Consistent (entries ++ e :: rest)) (hnew : e.2 ∉ entries.map Prod.snd) :
    run limit s (e :: rest) =
      e :: run limit (if s.room = 1 then start limit else ⟨s.room - 1, e.1 :: s.seen, some e.2⟩) rest := by
  have hseen : e.1 ∉ s.seen := by
    intro hmem
    obtain ⟨e', he', howner⟩ := ((h.seen e.1).mp hmem).exists_mem
    refine hnew ?_
    rw [hcons e (List.mem_append_right _ List.mem_cons_self) e' (List.mem_append_left _ he') howner.symm]
    exact List.mem_map_of_mem he'
  have hlast : s.last ≠ some e.2 := by
    intro hlast
    rw [h.last] at hlast
    split_ifs at hlast
    exact hnew (mem_news.mp (List.mem_of_mem_head? hlast))
  rw [run, if_neg hseen, if_neg hlast]

/-- An old value is passed over, or returned again. -/
theorem run_old {limit : Nat} {entries rest : List (α × β)} {s : State α β} {e : α × β} (h : Inv limit entries s)
    (hold : e.2 ∈ entries.map Prod.snd) :
    (PassedOver limit entries e ∧ ∃ s', Inv limit (entries ++ [e]) s' ∧ run limit s (e :: rest) = run limit s' rest) ∨
      (¬PassedOver limit entries e ∧ e ∈ run limit s (e :: rest)) := by
  by_cases hpassed : PassedOver limit entries e
  · refine .inl ⟨hpassed, ?_⟩
    by_cases hseen : e.1 ∈ s.seen
    · refine ⟨s, h.passed hold hpassed fun owner => ?_, by rw [run, if_pos hseen]⟩
      constructor
      · exact .inl
      · intro hmem
        cases hmem with
        | inl hmem => exact hmem
        | inr he => exact he ▸ hseen
    · have hlast : s.last = some e.2 := by
        rw [h.last, if_neg hpassed.1]
        exact hpassed.2.resolve_right fun hpage => hseen ((h.seen e.1).mpr hpage)
      refine ⟨{ s with seen := e.1 :: s.seen }, h.passed hold hpassed fun owner => ?_, by rw [run, if_neg hseen, if_pos hlast]⟩
      rw [List.mem_cons, or_comm, eq_comm]
  · refine .inr ⟨hpassed, ?_⟩
    have hseen : e.1 ∉ s.seen := by
      intro hmem
      refine hpassed ⟨fun hzero => ?_, .inr ((h.seen e.1).mp hmem)⟩
      rw [h.fresh hzero] at hmem
      exact absurd hmem List.not_mem_nil
    have hlast : s.last ≠ some e.2 := by
      intro hlast
      rw [h.last] at hlast
      split_ifs at hlast with hzero
      exact hpassed ⟨hzero, .inl hlast⟩
    rw [run, if_neg hseen, if_neg hlast]
    exact List.mem_cons_self

omit [DecidableEq α] in
/-- The entry itself, and those behind it. -/
theorem keptBehind_cons_iff {limit : Nat} {entries rest : List (α × β)} {e : α × β} :
    KeptBehind limit entries (e :: rest) ↔
      (e.2 ∈ entries.map Prod.snd → PassedOver limit entries e) ∧ KeptBehind limit (entries ++ [e]) rest := by
  constructor
  · intro hall
    refine ⟨fun hold => ?_, fun before e' behind heq hold => ?_⟩
    · have hhead := hall [] e rest rfl
      rw [List.append_nil] at hhead
      exact hhead hold
    · have htail := hall (e :: before) e' behind (by rw [heq, List.cons_append])
      rw [List.append_cons] at htail
      exact htail hold
  · intro h before e' behind heq hold
    cases before with
    | nil =>
      obtain ⟨rfl, -⟩ := List.cons.inj heq
      rw [List.append_nil] at hold ⊢
      exact h.1 hold
    | cons e'' before =>
      obtain ⟨rfl, htl⟩ := List.cons.inj heq
      rw [List.append_cons] at hold ⊢
      exact h.2 before e' behind htl hold

omit [DecidableEq α] [DecidableEq β] in
/-- The values up to an entry whose value was there before. -/
theorem mem_map_concat_of_mem {entries : List (α × β)} {e : α × β} (hold : e.2 ∈ entries.map Prod.snd) (v : β) :
    v ∈ (entries ++ [e]).map Prod.snd ↔ v ∈ entries.map Prod.snd := by
  rw [List.map_append, List.mem_append]
  exact ⟨fun hv => hv.elim id fun hv => List.mem_singleton.mp hv ▸ hold, .inl⟩

/-- By the same induction, the entries that are returned are the first ones of their values. -/
theorem run_eq_firsts_behind {limit : Nat} (hlimit : 0 < limit) {entries rest : List (α × β)} {s : State α β}
    (h : Inv limit entries s) (hcons : Consistent (entries ++ rest)) (hkept : KeptBehind limit entries rest)
    {old : List β} (hold : ∀ v, v ∈ old ↔ v ∈ entries.map Prod.snd) : run limit s rest = firsts old rest := by
  induction rest generalizing entries s old with
  | nil => rfl
  | cons e rest ih =>
    obtain ⟨hhead, htail⟩ := keptBehind_cons_iff.mp hkept
    rw [firsts]
    by_cases hmem : e.2 ∈ entries.map Prod.snd
    · cases @run_old _ _ _ _ limit entries rest s e h hmem with
      | inl hpassed =>
        obtain ⟨-, s', hs', hrun⟩ := hpassed
        rw [if_pos ((hold e.2).mpr hmem), hrun]
        exact ih hs' (consistent_shift hcons) htail fun v => (hold v).trans (mem_map_concat_of_mem hmem v).symm
      | inr hreturned => exact absurd (hhead hmem) hreturned.1
    · rw [if_neg fun hv => hmem ((hold e.2).mp hv), run_new h hcons hmem]
      refine congrArg (e :: ·) (ih (h.returned hlimit hmem) (consistent_shift hcons) htail fun v => ?_)
      rw [List.mem_cons, hold, List.map_append, List.mem_append, List.map_singleton, List.mem_singleton, or_comm]

theorem run_eq_firsts {limit : Nat} (hlimit : 0 < limit) {entries : List (α × β)} (hcons : Consistent entries)
    (hkept : Kept limit entries) : run limit (start limit) entries = firsts [] entries :=
  @run_eq_firsts_behind _ _ _ _ _ hlimit [] entries _ (inv_start limit) hcons hkept [] fun _ => Iff.rfl

theorem run_subset {limit : Nat} {s : State α β} {entries : List (α × β)} : ∀ e ∈ run limit s entries, e ∈ entries := by
  induction entries generalizing s with
  | nil => exact fun e h => h
  | cons e entries ih =>
    intro e' he'
    rw [run] at he'
    split_ifs at he' with hseen hlast
    · exact List.mem_cons_of_mem e (ih e' he')
    · exact List.mem_cons_of_mem e (ih e' he')
    · exact List.mem_cons.mpr ((List.mem_cons.mp he').imp_right (ih e'))
    · exact List.mem_cons.mpr ((List.mem_cons.mp he').imp_right (ih e'))

/-- Up to the end of the first page the limit plays no part. -/
theorem take_run {limit limit' room : Nat} {s : State α β} (hpos : 0 < s.room) (hroom : s.room ≤ room)
    (entries : List (α × β)) :
    (run limit s entries).take s.room = (run limit' { s with room } entries).take s.room := by
  induction entries generalizing s room with
  | nil => rfl
  | cons e entries ih =>
    rw [run, run]
    dsimp only
    split_ifs with hseen hlast hone hone'
    · exact ih hpos hroom
    · exact @ih room { s with seen := e.1 :: s.seen } hpos hroom
    · rw [hone, List.take_succ_cons, List.take_succ_cons, List.take_zero, List.take_zero]
    · rw [hone, List.take_succ_cons, List.take_succ_cons, List.take_zero, List.take_zero]
    · omega
    · obtain ⟨n, hn⟩ : ∃ n, s.room = n + 2 := ⟨s.room - 2, by omega⟩
      have htail := @ih (room - 1) ⟨s.room - 1, e.1 :: s.seen, some e.2⟩ (by dsimp only; omega) (by dsimp only; omega)
      have hless : s.room - 1 = n + 1 := by omega
      dsimp only at htail
      rw [hless] at htail ⊢
      rw [hn, List.take_succ_cons, List.take_succ_cons, htail]

omit [DecidableEq α] in
/-- The values of the first entries are the values, each once. -/
theorem map_snd_firsts (old : List β) (entries : List (α × β)) :
    (firsts old entries).map Prod.snd = ((entries.map Prod.snd).filter (· ∉ old)).eraseDups := by
  induction entries generalizing old with
  | nil => rfl
  | cons e entries ih =>
    rw [firsts, List.map_cons]
    split_ifs with hold
    · rw [List.filter_cons_of_neg (by simpa using hold), ih]
    · rw [List.filter_cons_of_pos (by simpa using hold), List.eraseDups_cons, List.map_cons, ih, List.filter_filter]
      refine congrArg (fun vs => e.2 :: List.eraseDups vs) (List.filter_congr fun v _ => ?_)
      by_cases hv : v = e.2
      · simp [hv]
      · simp [hv]

omit [DecidableEq α] in
/-- On a page with room for all of them, entries whose values were there before are passed over, if these were of the same
owners. -/
theorem kept_of_length_lt {limit : Nat} {entries : List (α × β)} (hlimit : entries.length < limit)
    (howner : ∀ e ∈ entries, ∀ e' ∈ entries, e.2 = e'.2 → e.1 = e'.1) : Kept limit entries := by
  intro before e behind heq hold
  rw [List.nil_append] at hold ⊢
  obtain ⟨e', he', hval⟩ := List.mem_map.mp hold
  have hless : ∀ part, part <+: entries → (news part).length < limit := by
    intro part hpart
    have hdedup := (List.dedup_sublist (part.map Prod.snd).reverse).length_le
    rw [List.length_reverse, List.length_map] at hdedup
    exact hdedup.trans_lt (hpart.length_le.trans_lt hlimit)
  have hbefore : before <+: entries := ⟨e :: behind, heq.symm⟩
  have hpos : 0 < (news before).length := List.length_pos_of_mem (mem_news.mpr hold)
  refine ⟨by rw [Nat.mod_eq_of_lt (hless before hbefore)]; omega, .inr ?_⟩
  obtain ⟨first, rest, hsplit⟩ := List.append_of_mem he'
  refine ⟨first, e', rest, hsplit, ?_, ?_⟩
  · refine howner e' (heq ▸ List.mem_append_left _ he') e (heq ▸ List.mem_append_right _ List.mem_cons_self) hval
  · have hfirst : first <+: entries := .trans ⟨e' :: rest, hsplit.symm⟩ hbefore
    rw [Nat.div_eq_of_lt (hless first hfirst), Nat.div_eq_of_lt (hless before hbefore)]

end Paged

end Lib
