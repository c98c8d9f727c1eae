import Db8.Db.MojDbIsamQueryCount
import Db8.Lib.Paged

/-!
# Db.MojDbIsamQueryPages

One page of a find query: the objects up to the limit, and the key at which the next page begins.

* `nextPage`      — the end key of a page that is full.
* `entries`       — the ids and the compared values of the keys to come.
* `itemAt_entry`  — one key: its object was returned, or has the last value, or it is returned.
* `getMany_page`  — a page returns what a run over the entries returns before its first page is full.
-/

namespace Db8

open Lib

namespace MojDbIsamQuery

variable {src : Source} {q : MojDbIsamQuery}

def nextPage (src : Source) (q : MojDbIsamQuery) : MojDbKey := if q.limitEnforced src then q.endKey else []

/-- The end key of a page that ends with the key. -/
def endOf (src : Source) (key : MojDbKey) : MojDbKey := if src.desc then key else MojDbKey.increment key

/-- The key that is returned is the current one. -/
theorem getKeyLoop_keyData {fuel : Nat} {kg : MojDbKey × Nat} (h : (getKeyLoop src fuel q).1 = some kg) :
    (getKeyLoop src fuel q).2.keyData = kg.1 := by
  induction fuel generalizing q with
  | zero => cases h
  | succ fuel ih =>
    rw [getKeyLoop] at h ⊢
    cases hiter : q.iter with
    | nil =>
      simp only [hiter] at h
      cases h
    | cons range ranges =>
      simp only [hiter] at h ⊢
      split_ifs at h ⊢
      · exact ih h
      · exact congrArg Prod.fst (Option.some.inj h)
      · exact ih h

theorem getKey_keyData {key : MojDbKey} {group : Nat} {q' : MojDbIsamQuery} (h : q.getKey src = (some (key, group), q')) :
    q'.keyData = key := by
  have hloop := @getKeyLoop_keyData src q (q.iter.length + src.keys.size + 1) (key, group) (congrArg Prod.fst h)
  exact (congrArg MojDbIsamQuery.keyData (congrArg Prod.snd h)).symm.trans hloop

theorem getKey_limit (h : src.limit ≤ q.count) : q.getKey src = (none, q) := by
  have henforced : q.limitEnforced src = true := decide_eq_true h
  rw [getKey, getKeyLoop]
  cases hiter : q.iter with
  | nil => rfl
  | cons range ranges =>
    dsimp only
    rw [if_pos henforced]

/-- The key that fills a page is kept for the next one. -/
theorem incrementCount_full (h : src.limit ≤ q.count + 1) : (q.incrementCount src).endKey = endOf src q.keyData := by
  have henforced : ({ q with count := q.count + 1 } : MojDbIsamQuery).limitEnforced src = true := decide_eq_true h
  rw [incrementCount, if_pos henforced]
  rfl

/-! ## One key -/

/-- The ids of the objects of the keys, each with what is compared for it. -/
def entries (st : MojDbIsamStore) (keys : List MojDbKey) : List (MojObject × MojObject) :=
  keys.filterMap fun key => (reading st key).toOption.join

/-- An object is stored under its id. -/
def StoredById (st : MojDbIsamStore) (id : MojObject) : Prop :=
  ∀ item obj, st.primary id = .ok (some item) → item.toObject = .ok obj → obj.get MojDb.IdKey = some id

/-- The objects of the keys can be read. -/
def Readable (st : MojDbIsamStore) (keys : List MojDbKey) : Prop :=
  ∀ key ∈ keys, ∃ e, reading st key = .ok (some e) ∧ StoredById st e.1

/-- The page knows what the query keeps. -/
structure Knows (st : MojDbIsamStore) (s : Paged.State MojObject MojObject) (seen : MojDbIsamSeen) : Prop where
  inserted : s.seen = seen.insertedIds
  last_seen : st.distinct.chars = [] → ∀ v ∈ s.last, v ∈ s.seen
  last : st.distinct.chars ≠ [] → seen.lastItem.map (·.getRequired st.distinct) = s.last.map .ok

/-- The item is the object of the entry. -/
structure Gives (st : MojDbIsamStore) (item : MojDbStorageItem) (e : MojObject × MojObject) : Prop where
  id : item.id = e.1
  value : readId st e.1 = .ok (some e.2)
  object : ∃ stored, st.primary e.1 = .ok (some stored) ∧ item.toObject = stored.toObject

variable {st : MojDbIsamStore} {s : Paged.State MojObject MojObject} {seen : MojDbIsamSeen} {key : MojDbKey}
  {e : MojObject × MojObject}

theorem entries_cons {keys : List MojDbKey} (h : reading st key = .ok (some e)) :
    entries st (key :: keys) = e :: entries st keys := by
  rw [entries, List.filterMap_cons, h]
  rfl

/-- **One key.** Its object is passed over as one that was returned, or one with the last value, or it is returned. -/
theorem itemAt_entry (h : Knows st s seen) (hkey : reading st key = .ok (some e)) (hid : StoredById st e.1) :
    (e.1 ∈ s.seen ∧ itemAt st seen key = (.ok none, seen)) ∨
    (e.1 ∉ s.seen ∧ s.last = some e.2 ∧
      ∃ seen', itemAt st seen key = (.ok none, seen') ∧ Knows st { s with seen := e.1 :: s.seen } seen') ∨
    (e.1 ∉ s.seen ∧ s.last ≠ some e.2 ∧ ∃ item seen', itemAt st seen key = (.ok (some item), seen') ∧ Gives st item e ∧
      ∀ room, Knows st ⟨room, e.1 :: s.seen, some e.2⟩ seen') := by
  obtain ⟨id, hparse, hrest⟩ := bind_eq_ok.mp hkey
  obtain ⟨val?, hread, hsome⟩ := bind_eq_ok.mp hrest
  obtain ⟨val, rfl, rfl⟩ := Option.map_eq_some_iff.mp (Except.ok.inj hsome)
  have hval := hread
  obtain ⟨item?, hget, hval⟩ := bind_eq_ok.mp hval
  cases item? with
  | none => cases Except.ok.inj hval
  | some item =>
    have hgetVal : getVal st key = .ok (some item) := by
      rw [getVal, hparse, ok_bind, hget]
    have hitemId : item.id = id := getById_id hget
    obtain ⟨stored, hstored, hsame⟩ : ∃ stored, st.primary id = .ok (some stored) ∧ item.toObject = stored.toObject := by
      obtain ⟨found, hfound, hexclude⟩ := bind_eq_ok.mp hget
      cases found with
      | none => cases hexclude
      | some stored =>
        obtain ⟨exclude, -, hitem⟩ := bind_eq_ok.mp hexclude
        refine ⟨stored, hfound, ?_⟩
        cases exclude with
        | true => cases Except.ok.inj hitem
        | false =>
          obtain rfl := Option.some.inj (Except.ok.inj hitem)
          rfl
    unfold itemAt
    rw [hgetVal]
    dsimp only at hval ⊢
    rw [hitemId, ← h.inserted]
    by_cases hinserted : id ∈ s.seen
    · exact .inl ⟨hinserted, by rw [if_pos hinserted]⟩
    refine .inr ?_
    rw [if_neg hinserted]
    split_ifs at hval ⊢ with hplain
    · -- the ids are compared, and this one is new
      obtain rfl := Option.some.inj (Except.ok.inj hval)
      refine .inr ⟨hinserted, fun hlast => hinserted (h.last_seen hplain id (by rw [hlast]; rfl)), item, _, rfl,
        ⟨hitemId, hread, stored, hstored, hsame⟩, fun room => ⟨rfl, fun _ v hv => ?_,
          fun hne => absurd hplain hne⟩⟩
      obtain rfl := Option.some.inj hv
      exact List.mem_cons_self
    · obtain ⟨obj, hobj, hval⟩ := bind_eq_ok.mp hval
      obtain ⟨destObj, hdest, hval⟩ := bind_eq_ok.mp hval
      obtain rfl := Option.some.inj (Except.ok.inj hval)
      have hlast := h.last hplain
      have hgives : Gives st (MojDbObjectItem obj) (id, destObj) := by
        refine ⟨?_, hread, stored, hstored, (hsame.symm.trans hobj).symm⟩
        rw [MojDbObjectItem, hid stored obj hstored (hsame.symm.trans hobj)]
        rfl
      have hknows : ∀ room, Knows st ⟨room, id :: s.seen, some destObj⟩ ⟨id :: s.seen, some obj⟩ := fun room =>
        ⟨rfl, fun he => absurd he hplain, fun _ => by rw [Option.map_some, hdest]; rfl⟩
      unfold distinct
      rw [hobj, ok_bind, hdest, ok_bind]
      cases hseen : seen.lastItem with
      | none =>
        rw [hseen] at hlast
        have hnone : s.last = none := Option.map_eq_none_iff.mp hlast.symm
        refine .inr ⟨hinserted, ?_, _, _, rfl, hgives, hknows⟩
        rw [hnone]
        exact (Option.some_ne_none _).symm
      | some compObj =>
        rw [hseen] at hlast
        obtain ⟨v, hv, hcomp⟩ := Option.map_eq_some_iff.mp hlast.symm
        have hdistinct : compObj.getRequired st.distinct = .ok v := hcomp.symm
        dsimp only
        rw [hdistinct, ok_bind]
        by_cases hsameVal : v = destObj
        · refine .inl ⟨hinserted, by rw [hv, hsameVal], _, by rw [decide_eq_true hsameVal]; rfl, ?_⟩
          refine ⟨rfl, fun he => absurd he hplain, fun _ => ?_⟩
          rw [Option.map_some, hdistinct, hv]
          rfl
        · refine .inr ⟨hinserted, fun hsome => hsameVal (Option.some.inj (hv.symm.trans hsome)), _, _,
            by rw [decide_eq_false hsameVal]; rfl, hgives, hknows⟩

end MojDbIsamQuery

/-! ## One page -/

namespace MojDbIsamReads

open MojDbIsamQuery (Source Fault Ok rest entries Readable Knows Gives endOf itemAt getKey_spec incrementCount_eq entries_cons)
open Paged (start)

variable {src : Source} {st : MojDbIsamStore} {s : Paged.State MojObject MojObject} {r : MojDbIsamReads}

/-- The query is on a page with room left on it. -/
structure OnPage (src : Source) (st : MojDbIsamStore) (s : Paged.State MojObject MojObject) (r : MojDbIsamReads) : Prop where
  ok : Ok src r.query
  knows : Knows st s r.seen
  room : s.room + r.query.count = src.limit
  pos : 0 < s.room
  readable : Readable st (rest src r.query)

/-- The entries to come. -/
abbrev toRead (src : Source) (st : MojDbIsamStore) (r : MojDbIsamReads) : List (MojObject × MojObject) :=
  entries st (rest src r.query)

/-- What a call of `getImpl` does on a page. -/
inductive Turns (src : Source) (st : MojDbIsamStore) (s : Paged.State MojObject MojObject) (r : MojDbIsamReads) :
    Except Fault (Option MojDbStorageItem × Bool) × MojDbIsamReads → Prop where
  | ended {r' : MojDbIsamReads} (nil : rest src r.query = []) (ok : Ok src r'.query) (count : r'.query.count = r.query.count)
      (rest_nil : rest src r'.query = []) : Turns src st s r (.ok (none, false), r')
  | passed {r' : MojDbIsamReads} {key : MojDbKey} {s' : Paged.State MojObject MojObject} (onPage : OnPage src st s' r')
      (room : s'.room = s.room) (rest_eq : rest src r.query = key :: rest src r'.query)
      (run_eq : Paged.run src.limit s (toRead src st r) = Paged.run src.limit s' (toRead src st r')) :
      Turns src st s r (.ok (none, true), r')
  | item {r' : MojDbIsamReads} {key : MojDbKey} {item : MojDbStorageItem} {e : MojObject × MojObject}
      {s' : Paged.State MojObject MojObject} (onPage : OnPage src st s' r') (room : s'.room + 1 = s.room)
      (rest_eq : rest src r.query = key :: rest src r'.query) (gives : Gives st item e)
      (run_eq : Paged.run src.limit s (toRead src st r) = e :: Paged.run src.limit s' (toRead src st r')) :
      Turns src st s r (.ok (some item, true), r')
  | full {r' : MojDbIsamReads} {key : MojDbKey} {item : MojDbStorageItem} {e : MojObject × MojObject}
      (count : r'.query.count = src.limit) (endKey : r'.query.endKey = endOf src key)
      (rest_eq : rest src r.query = key :: rest src r'.query) (gives : Gives st item e)
      (run_eq : Paged.run src.limit s (toRead src st r) = e :: Paged.run src.limit (start src.limit) (toRead src st r')) :
      Turns src st s r (.ok (some item, true), r')

theorem getImpl_turns (h : OnPage src st s r) : Turns src st s r (r.getImpl src st) := by
  have hwithin : r.query.count < src.limit := by
    have hroom := h.room
    have hpos := h.pos
    omega
  obtain ⟨hok, hcount, -, hgo⟩ := getKey_spec h.ok
  obtain ⟨hkey, hrest⟩ := hgo hwithin
  rw [getImpl]
  cases hget : r.query.getKey src with
  | mk found q =>
    rw [hget] at hok hcount hkey hrest
    dsimp only at hok hcount hkey hrest
    cases found with
    | none =>
      have hnil : rest src r.query = [] := List.head?_eq_none_iff.mp hkey.symm
      exact .ended hnil hok hcount (by rw [hrest, hnil, List.tail_nil])
    | some kg =>
      obtain ⟨key, group⟩ := kg
      have hcons : rest src r.query = key :: rest src q := by
        rw [hrest]
        exact (List.cons_head?_tail hkey.symm).symm
      obtain ⟨e, he, hid⟩ := h.readable key (hcons ▸ List.mem_cons_self)
      have hreadable : Readable st (rest src q) := fun k hk => h.readable k (hcons ▸ List.mem_cons_of_mem key hk)
      have hentries : toRead src st r = e :: entries st (rest src q) := by
        rw [toRead, hcons, entries_cons he]
      dsimp only
      obtain ⟨hseen, hitem⟩ | ⟨hnew, hlast, seen', hitem, hknows⟩ | ⟨hnew, hlast, item, seen', hitem, hgives, hknows⟩ :=
        MojDbIsamQuery.itemAt_entry h.knows he hid
      · rw [hitem]
        refine .passed ⟨hok, h.knows, by rw [hcount]; exact h.room, h.pos, hreadable⟩ rfl hcons ?_
        rw [hentries, Paged.run, if_pos hseen]
      · rw [hitem]
        refine .passed ⟨hok, hknows, by rw [hcount]; exact h.room, h.pos, hreadable⟩ rfl hcons ?_
        rw [hentries, Paged.run, if_neg hnew, if_pos hlast]
      · rw [hitem]
        obtain ⟨endKey, hinc⟩ := incrementCount_eq src q
        have hrestInc : rest src (q.incrementCount src) = rest src q := by
          rw [hinc]
          rfl
        have hcountInc : (q.incrementCount src).count = r.query.count + 1 := by
          rw [hinc]
          exact congrArg (· + 1) hcount
        have hroom := h.room
        by_cases hfull : s.room = 1
        · refine .full (by rw [hcountInc]; omega) ?_ (by rw [hrestInc, hcons]) hgives ?_
          · rw [MojDbIsamQuery.incrementCount_full (by omega), MojDbIsamQuery.getKey_keyData hget]
          · rw [hentries, Paged.run, if_neg hnew, if_neg hlast, if_pos hfull, toRead, hrestInc]
        · have hpos := h.pos
          refine .item ⟨?_, hknows (s.room - 1), ?_, ?_, ?_⟩ ?_ (by rw [hrestInc, hcons]) hgives ?_
          · rw [hinc]
            exact ⟨hok.ordered, hok.at_key, hok.in_range⟩
          · rw [hcountInc]
            dsimp only
            omega
          · dsimp only
            omega
          · rw [hrestInc]
            exact hreadable
          · dsimp only
            omega
          · rw [hentries, Paged.run, if_neg hnew, if_neg hlast, if_neg hfull, toRead, hrestInc]

/-- What a call of `get` does on a page: it is at the end, or it returns an item, which may fill the page. -/
inductive Serves (src : Source) (st : MojDbIsamStore) (s : Paged.State MojObject MojObject) (r : MojDbIsamReads) :
    Except Fault (Option MojDbStorageItem) × MojDbIsamReads → Prop where
  | ended {r' : MojDbIsamReads} (run_nil : Paged.run src.limit s (toRead src st r) = []) (ok : Ok src r'.query)
      (count : r'.query.count < src.limit) (rest_nil : rest src r'.query = []) : Serves src st s r (.ok none, r')
  | item {r' : MojDbIsamReads} {item : MojDbStorageItem} {e : MojObject × MojObject} {s' : Paged.State MojObject MojObject}
      (onPage : OnPage src st s' r') (room : s'.room + 1 = s.room) (gives : Gives st item e)
      (suffix : ∃ pre, rest src r.query = pre ++ rest src r'.query ∧ pre ≠ [])
      (run_eq : Paged.run src.limit s (toRead src st r) = e :: Paged.run src.limit s' (toRead src st r')) :
      Serves src st s r (.ok (some item), r')
  | full {r' : MojDbIsamReads} {pre : List MojDbKey} {key : MojDbKey} {item : MojDbStorageItem} {e : MojObject × MojObject}
      (count : r'.query.count = src.limit) (endKey : r'.query.endKey = endOf src key)
      (rest_eq : rest src r.query = pre ++ key :: rest src r'.query) (gives : Gives st item e)
      (run_eq : Paged.run src.limit s (toRead src st r) = e :: Paged.run src.limit (start src.limit) (toRead src st r')) :
      Serves src st s r (.ok (some item), r')

theorem getLoop_serves {fuel : Nat} (h : OnPage src st s r) (hfuel : (rest src r.query).length < fuel) :
    Serves src st s r (getLoop src st fuel r) := by
  induction fuel generalizing r s with
  | zero => exact absurd hfuel (Nat.not_lt_zero _)
  | succ fuel ih =>
    rw [getLoop]
    have hturns := getImpl_turns h
    generalize hget : r.getImpl src st = got at hturns ⊢
    cases hturns with
    | ended nil ok count rest_nil =>
      have hroom := h.room
      have hpos := h.pos
      refine .ended ?_ ok (by omega) rest_nil
      rw [toRead, nil]
      rfl
    | @passed r' key s' onPage room rest_eq run_eq =>
      dsimp only
      rw [rest_eq, List.length_cons] at hfuel
      have hserves := ih onPage (Nat.lt_of_succ_lt_succ hfuel)
      generalize getLoop src st fuel r' = served at hserves ⊢
      cases hserves with
      | ended run_nil ok count rest_nil => exact .ended (run_eq.trans run_nil) ok count rest_nil
      | item onPage' room' gives suffix run_eq' =>
        obtain ⟨pre, hpre, -⟩ := suffix
        exact .item onPage' (room'.trans room) gives ⟨key :: pre, by rw [rest_eq, hpre]; rfl, List.cons_ne_nil key pre⟩
          (run_eq.trans run_eq')
      | @full r'' pre _ item e count endKey rest_eq' gives run_eq' =>
        exact .full count endKey (by rw [rest_eq, rest_eq', List.cons_append]) gives (run_eq.trans run_eq')
    | item onPage room rest_eq gives run_eq =>
      exact .item onPage room gives ⟨[_], rest_eq, List.cons_ne_nil _ []⟩ run_eq
    | full count endKey rest_eq gives run_eq => exact .full count endKey (rest_eq.trans (List.nil_append _).symm) gives run_eq

theorem get_serves (h : OnPage src st s r) : Serves src st s r (r.get src st) :=
  getLoop_serves h (Nat.lt_succ_of_le (MojDbIsamQuery.length_rest_le src r.query))

/-- On a full page nothing more is found. -/
theorem getMany_of_full (h : src.limit ≤ r.query.count) (calls : Nat) : getMany src st calls r = (.ok [], r) := by
  induction calls with
  | zero => rfl
  | succ calls ih =>
    have hget : r.get src st = (.ok none, r) := by
      rw [get, getLoop, getImpl, MojDbIsamQuery.getKey_limit h]
    rw [getMany, hget]
    exact ih

/-- Behind the last key nothing more is found. -/
theorem getMany_of_nil (hok : Ok src r.query) (hcount : r.query.count < src.limit) (hnil : rest src r.query = []) (calls : Nat) :
    ∃ r', getMany src st calls r = (.ok [], r') ∧ r'.query.count < src.limit := by
  have hcome : toCome src st src.limit r = .ok [] := by
    rw [toCome, hnil, MojDbIsamQuery.walk]
  have hmany := @getMany_spec src st calls r hok
  generalize getMany src st calls r = many at hmany ⊢
  obtain ⟨res, r'⟩ := many
  cases res with
  | error fault =>
    have hfault := hmany src.limit le_rfl
    rw [hcome] at hfault
    cases hfault
  | ok items =>
    obtain ⟨-, hcount', heq, -⟩ := hmany
    have hitems := heq src.limit le_rfl
    rw [hcome] at hitems
    cases hleft : toCome src st src.limit r' with
    | error fault =>
      rw [hleft] at hitems
      cases hitems
    | ok left =>
      rw [hleft] at hitems
      obtain rfl := (List.append_eq_nil_iff.mp (Except.ok.inj hitems).symm).1
      exact ⟨r', rfl, by rw [hcount']; exact hcount⟩

/-- What the calls for one page return: all there is, or as much as there is room for, and the key that filled the page. -/
structure Page (src : Source) (st : MojDbIsamStore) (s : Paged.State MojObject MojObject) (r : MojDbIsamReads)
    (items : List MojDbStorageItem) (r' : MojDbIsamReads) : Prop where
  returns : ∃ es, List.Forall₂ (Gives st) items es ∧
    (r'.query.count < src.limit ∧ Paged.run src.limit s (toRead src st r) = es ∨
      r'.query.count = src.limit ∧ ∃ pre key post, rest src r.query = pre ++ key :: post ∧ r'.query.endKey = endOf src key ∧
        Paged.run src.limit s (toRead src st r) = es ++ Paged.run src.limit (start src.limit) (entries st post))
  count : r'.query.count = r.query.count + items.length

/-- **The calls for one page.** -/
theorem getMany_page {calls : Nat} (h : OnPage src st s r)
    (hcalls : (rest src r.query).length < calls) : ∃ items r', getMany src st calls r = (.ok items, r') ∧ Page src st s r items r' := by
  suffices hreturns : ∃ items r', getMany src st calls r = (.ok items, r') ∧ ∃ es, List.Forall₂ (Gives st) items es ∧
      (r'.query.count < src.limit ∧ Paged.run src.limit s (toRead src st r) = es ∨
        r'.query.count = src.limit ∧ ∃ pre key post, rest src r.query = pre ++ key :: post ∧ r'.query.endKey = endOf src key ∧
          Paged.run src.limit s (toRead src st r) = es ++ Paged.run src.limit (start src.limit) (entries st post)) by
    obtain ⟨items, r', hmany, hreturns⟩ := hreturns
    have hcount := @getMany_spec src st calls r h.ok
    rw [hmany] at hcount
    exact ⟨items, r', hmany, hreturns, hcount.2.1⟩
  induction calls generalizing r s with
  | zero => exact absurd hcalls (Nat.not_lt_zero _)
  | succ calls ih =>
    rw [getMany]
    have hserves := get_serves h
    generalize r.get src st = got at hserves ⊢
    cases hserves with
    | @ended r' run_nil ok count rest_nil =>
      obtain ⟨r'', hmany, hcount⟩ := @getMany_of_nil src st r' ok count rest_nil calls
      exact ⟨[], r'', hmany, [], .nil, .inl ⟨hcount, run_nil⟩⟩
    | @item r' item e s' onPage room gives suffix run_eq =>
      obtain ⟨pre, hpre, hne⟩ := suffix
      have hlen : (rest src r'.query).length < calls := by
        have hpos := List.length_pos_of_ne_nil hne
        rw [hpre, List.length_append] at hcalls
        omega
      obtain ⟨items, r'', hmany, es, hgives, hends⟩ := ih onPage hlen
      refine ⟨item :: items, r'', ?_, e :: es, .cons gives hgives, ?_⟩
      · dsimp only
        rw [hmany]
        rfl
      · obtain ⟨hcount, hrun⟩ | ⟨hcount, pre', key, post, hrest, hend, hrun⟩ := hends
        · exact .inl ⟨hcount, by rw [run_eq, hrun]⟩
        · exact .inr ⟨hcount, pre ++ pre', key, post, by rw [hpre, hrest, List.append_assoc], hend, by
            rw [run_eq, hrun, List.cons_append]⟩
    | @full r' pre key item e count endKey rest_eq gives run_eq =>
      refine ⟨[item], r', ?_, [e], .cons gives .nil, .inr ⟨count, pre, key, rest src r'.query, rest_eq, endKey, run_eq⟩⟩
      dsimp only
      rw [getMany_of_full (Nat.le_of_eq count.symm)]
      rfl

end MojDbIsamReads

end Db8
