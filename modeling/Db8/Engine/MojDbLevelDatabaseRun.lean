import Db8.Engine.MojDbLevelDatabase

/-!
# Engine.MojDbLevelDatabaseRun

Runs of transactions on the database against the same runs on the finite map.

* `Refines`        — a transaction of the code and its overlay.
* `delPrefix_refines` — the walk of `delPrefix` removes the keys with the prefix.
* `exec_refines`   — one operation: the same result, when it is clear.
* `results_of_run` — whole runs.
-/

namespace Db8

open Lib
open Lib.Toward (on finish keysAt)
open MojDbLevelTxnIterator (Stands DelClear allKeys on_current)

/-! ## Keys with a prefix -/

namespace SortedMapPrefix

variable {ν : Type*} (m : SortedMap MojDbKey ν) (pre : MojDbKey)

def entriesWith : List (MojDbKey × ν) := m.entries.filter fun e => pre.isPrefixOf e.1

variable {m pre}

theorem mem_entriesWith {e : MojDbKey × ν} : e ∈ entriesWith m pre ↔ m.find e.1 = some e.2 ∧ pre <+: e.1 := by
  rw [entriesWith, List.mem_filter, List.isPrefixOf_iff_prefix]
  exact and_congr_left fun _ => SortedMap.mem_entries

/-- Of the keys at or after the prefix those that have it come first. -/
theorem lt_of_not_extends {k x : MojDbKey} (hk : pre <+: k) (hx : pre ≤ x) (hnot : ¬pre <+: x) : k < x := by
  obtain ⟨-, hbelow⟩ := MojDbKey.prefix_iff.mp hk
  have hover : ¬MojDbKey.Below x (MojDbKey.increment pre) := fun h => hnot (MojDbKey.prefix_iff.mpr ⟨hx, h⟩)
  rw [MojDbKey.Below, not_or, not_lt] at hover
  exact (hbelow.resolve_left hover.1).trans_le hover.2

theorem atOrAfter_cases (keys : KeySet) (key : MojDbKey) :
    (keys.atOrAfter true (.key key) = .afterLast ∧ ∀ k ∈ keys, ¬key ≤ k) ∨
      ∃ k ∈ keys, keys.atOrAfter true (.key key) = .key k ∧ key ≤ k ∧ ∀ j ∈ keys, key ≤ j → k ≤ j := by
  have hle : ∀ {j k : MojDbKey}, on true (.key j) ≤ on true (.key k) ↔ j ≤ k := CursorPos.key_le_key
  cases keys.firstWith_cases true fun k => on true (.key key) ≤ on true (.key k) with
  | inl hnone =>
    obtain ⟨hpos, hnone⟩ := hnone
    refine .inl ⟨hpos, fun k hk hge => ?_⟩
    exact of_decide_eq_false (hnone k hk) (hle.mpr hge)
  | inr hfirst =>
    obtain ⟨k, hk, hpos, hck, hleast⟩ := hfirst
    refine .inr ⟨k, hk, hpos, hle.mp (of_decide_eq_true hck), fun j hj hge => ?_⟩
    exact hle.mp (hleast j hj (decide_eq_true (hle.mpr hge)))

/-- A seek goes to the first key with the prefix. -/
theorem atOrAfter_of_cons {e : MojDbKey × ν} {es : List (MojDbKey × ν)} (h : entriesWith m pre = e :: es) :
    m.keys.atOrAfter true (.key pre) = .key e.1 := by
  have hmem : e ∈ entriesWith m pre := h ▸ List.mem_cons_self
  obtain ⟨hfind, hpre⟩ := mem_entriesWith.mp hmem
  have hkey : e.1 ∈ m.keys := SortedMap.mem_keys.mpr (by rw [hfind]; nofun)
  have hle : pre ≤ e.1 := (MojDbKey.prefix_iff.mp hpre).1
  cases atOrAfter_cases m.keys pre with
  | inl hnone => exact absurd hle (hnone.2 e.1 hkey)
  | inr hfirst =>
    obtain ⟨k, hk, hpos, hge, hleast⟩ := hfirst
    rw [hpos]
    refine congrArg CursorPos.key (le_antisymm (hleast e.1 hkey hle) ?_)
    by_cases hkpre : pre <+: k
    · obtain ⟨v, hv⟩ := Option.ne_none_iff_exists'.mp (SortedMap.mem_keys.mp hk)
      have hkmem : (k, v) ∈ e :: es := h ▸ mem_entriesWith.mpr ⟨hv, hkpre⟩
      have hsorted : (e :: es).Pairwise fun d e => d.1 < e.1 := h ▸ m.sorted.filter _
      cases List.mem_cons.mp hkmem with
      | inl he => exact le_of_eq (congrArg Prod.fst he).symm
      | inr hes => exact (List.rel_of_pairwise_cons hsorted hes).le
    · exact (lt_of_not_extends hpre hge hkpre).le

/-- Without a key with the prefix, a seek goes to one that does not have it, or to the end. -/
theorem atOrAfter_of_nil (h : entriesWith m pre = []) {k : MojDbKey} (hpos : m.keys.atOrAfter true (.key pre) = .key k) :
    ¬pre <+: k := by
  intro hpre
  cases atOrAfter_cases m.keys pre with
  | inl hnone =>
    rw [hpos] at hnone
    cases hnone.1
  | inr hfirst =>
    obtain ⟨k', hk', hpos', -, -⟩ := hfirst
    rw [hpos, CursorPos.key.injEq] at hpos'
    subst hpos'
    obtain ⟨v, hv⟩ := Option.ne_none_iff_exists'.mp (SortedMap.mem_keys.mp hk')
    have hmem : (k, v) ∈ entriesWith m pre := mem_entriesWith.mpr ⟨hv, hpre⟩
    rw [h] at hmem
    cases hmem

/-- The first entry with the prefix is removed. -/
theorem entriesWith_erase {e : MojDbKey × ν} {es : List (MojDbKey × ν)} (h : entriesWith m pre = e :: es) :
    entriesWith (m.erase e.1) pre = es := by
  have hsorted : (e :: es).Pairwise fun d e => d.1 < e.1 := h ▸ m.sorted.filter _
  have hcomm : entriesWith (m.erase e.1) pre = (entriesWith m pre).filter fun p => p.1 ≠ e.1 := by
    rw [entriesWith, entriesWith, SortedMap.erase, List.filter_filter, List.filter_filter]
    refine List.filter_congr fun p _ => ?_
    cases pre.isPrefixOf p.1 with
    | false => simp
    | true => simp
  rw [hcomm, h, List.filter_cons_of_neg (by simp), List.filter_eq_self]
  intro d hd
  exact decide_eq_true (List.rel_of_pairwise_cons hsorted hd).ne'

/-- The key behind the one that is removed is the first one again. -/
theorem after_erase {e : MojDbKey × ν} {es : List (MojDbKey × ν)} (h : entriesWith m pre = e :: es) :
    (m.erase e.1).keys.after true (.key e.1) = (m.erase e.1).keys.atOrAfter true (.key pre) := by
  have hmem : e ∈ entriesWith m pre := h ▸ List.mem_cons_self
  obtain ⟨-, hpre⟩ := mem_entriesWith.mp hmem
  refine SortedSet.firstWith_congr _ true fun k hk => decide_eq_decide.mpr ?_
  change CursorPos.key e.1 < .key k ↔ CursorPos.key pre ≤ .key k
  rw [CursorPos.key_lt_key, CursorPos.key_le_key]
  rw [SortedMap.mem_keys, SortedMap.find_erase] at hk
  have hne : k ≠ e.1 := fun he => hk (if_pos he)
  rw [if_neg hne] at hk
  constructor
  · intro hlt
    exact (MojDbKey.prefix_iff.mp hpre).1.trans hlt.le
  · intro hle
    have hpos := atOrAfter_of_cons h
    cases atOrAfter_cases m.keys pre with
    | inl hnone =>
      rw [hpos] at hnone
      cases hnone.1
    | inr hfirst =>
      obtain ⟨k', -, hpos', -, hleast⟩ := hfirst
      rw [hpos, CursorPos.key.injEq] at hpos'
      subst hpos'
      exact lt_of_le_of_ne (hleast k (SortedMap.mem_keys.mpr hk) hle) (Ne.symm hne)

end SortedMapPrefix

/-! ## The relation -/

namespace MojDbLevelEnvTxn

open SortedMapPrefix

variable {Q : Type*}

/-- A cursor of the code and its position in the map. -/
def cursorRun (t : MojDbLevelEnvTxn Q) (it : MojDbLevelTxnIterator MojDbKey) (m : MapTxn Q) (pos : CursorPos MojDbKey) :
    CursorRun MojDbKey LevelVal := ⟨⟨t.tableTxn, it⟩, ⟨m.map, pos⟩⟩

/-- Every open cursor, except perhaps one. -/
def Cursors (t : MojDbLevelEnvTxn Q) (m : MapTxn Q) (P : Nat → CursorRun MojDbKey LevelVal → Prop) : Prop :=
  ∀ name it pos, t.iterators name = some it → m.cursors name = some pos → P name (t.cursorRun it m pos)

/-- The overlay is what the transaction would leave, and each cursor follows its position there. -/
structure Refines (t : MojDbLevelEnvTxn Q) (m : MapTxn Q) : Prop where
  map : m.map = t.tableTxn.merged
  quota : m.quota = t.quota
  opened : ∀ name, (t.iterators name).isSome = (m.cursors name).isSome
  follow : Cursors t m fun _ c => c.Ok

variable {t : MojDbLevelEnvTxn Q} {m : MapTxn Q}

theorem refines_begin (db : SortedMap MojDbKey LevelVal) (quota : Q) :
    Refines (.begin db quota : MojDbLevelEnvTxn Q) (.begin db quota) where
  map := rfl
  quota := rfl
  opened _ := rfl
  follow := nofun

theorem Refines.setQuota (h : Refines t m) (quota : Q) : Refines { t with quota } { m with quota } where
  map := h.map
  quota := rfl
  opened := h.opened
  follow := h.follow

/-- The position of a cursor, with the cursor. -/
theorem Refines.cursor (h : Refines t m) {name : Nat} {it : MojDbLevelTxnIterator MojDbKey}
    (hit : t.iterators name = some it) :
    ∃ pos, m.cursors name = some pos ∧ (t.cursorRun it m pos).Ok := by
  have hopened := h.opened name
  rw [hit] at hopened
  obtain ⟨pos, hpos⟩ := Option.isSome_iff_exists.mp hopened.symm
  exact ⟨pos, hpos, h.follow name it pos hit hpos⟩

theorem Refines.closed (h : Refines t m) {name : Nat} (hit : t.iterators name = none) : m.cursors name = none := by
  have hopened := h.opened name
  rw [hit] at hopened
  exact Option.isSome_eq_false_iff.mp hopened.symm |> Option.isNone_iff_eq_none.mp

theorem Refines.tablePut (h : Refines t m) {key : MojDbKey} {val : LevelVal}
    (hclear : Cursors t m fun _ c => c.Clear (.put key val)) :
    Refines (t.tablePut key val) { m with map := m.map.insert key val } where
  map := by
    change m.map.insert key val = (t.tableTxn.put key val).merged
    rw [MojDbLevelTableTxn.merged_put, h.map]
  quota := h.quota
  opened name := by
    change ((t.iterators name).map _).isSome = _
    rw [Option.isSome_map, h.opened name]
  follow name it pos hit hpos := by
    obtain ⟨it', hit', rfl⟩ := Option.map_eq_some_iff.mp hit
    exact CursorRun.ok_step _ (.put key val) (h.follow name it' pos hit' hpos) (hclear name it' pos hit' hpos)

theorem Refines.tableDelete (h : Refines t m) {key : MojDbKey} (hclear : Cursors t m fun _ c => c.Clear (.del key)) :
    Refines (t.tableDelete key) { m with map := m.map.erase key } where
  map := by
    change m.map.erase key = (t.tableTxn.del key).merged
    rw [MojDbLevelTableTxn.merged_del, h.map]
  quota := h.quota
  opened name := by
    change ((t.iterators name).map _).isSome = _
    rw [Option.isSome_map, h.opened name]
  follow name it pos hit hpos := by
    obtain ⟨it', hit', rfl⟩ := Option.map_eq_some_iff.mp hit
    exact CursorRun.ok_step _ (.del key) (h.follow name it' pos hit' hpos) (hclear name it' pos hit' hpos)

theorem setIterator_of_ne {name other : Nat} (h : other ≠ name) {it : Option (MojDbLevelTxnIterator MojDbKey)} :
    (t.setIterator name it).iterators other = t.iterators other := Function.update_of_ne h _ _

theorem setCursor_of_ne {name other : Nat} (h : other ≠ name) {pos : Option (CursorPos MojDbKey)} :
    (m.setCursor name pos).cursors other = m.cursors other := Function.update_of_ne h _ _

theorem Refines.setIterator (h : Refines t m) (name : Nat) {it : MojDbLevelTxnIterator MojDbKey}
    {pos : CursorPos MojDbKey} (hok : (t.cursorRun it m pos).Ok) :
    Refines (t.setIterator name (some it)) (m.setCursor name (some pos)) where
  map := h.map
  quota := h.quota
  opened other := by
    unfold MojDbLevelEnvTxn.setIterator MapTxn.setCursor
    by_cases heq : other = name
    · simp [heq]
    · simp [heq, h.opened other]
  follow other it' pos' hit hpos := by
    by_cases heq : other = name
    · subst heq
      simp only [MojDbLevelEnvTxn.setIterator, MapTxn.setCursor, Function.update_self, Option.some.injEq] at hit hpos
      subst hit
      subst hpos
      exact hok
    · rw [setIterator_of_ne heq] at hit
      rw [setCursor_of_ne heq] at hpos
      exact h.follow other it' pos' hit hpos

theorem Refines.closeIterator (h : Refines t m) (name : Nat) :
    Refines (t.setIterator name none) (m.setCursor name none) where
  map := h.map
  quota := h.quota
  opened other := by
    unfold MojDbLevelEnvTxn.setIterator MapTxn.setCursor
    by_cases heq : other = name
    · simp [heq]
    · simp [heq, h.opened other]
  follow other it' pos' hit hpos := by
    by_cases heq : other = name
    · subst heq
      simp [MojDbLevelEnvTxn.setIterator] at hit
    · rw [setIterator_of_ne heq] at hit
      rw [setCursor_of_ne heq] at hpos
      exact h.follow other it' pos' hit hpos

/-! ## The entry under a cursor -/

/-- A cursor that reads an entry stands on it. -/
theorem read_eq_some {κ ν : Type*} [LinearOrder κ] {txn : MojDbLevelTableTxn κ ν} {it : MojDbLevelTxnIterator κ} {e : κ × ν}
    (h : it.read txn = some e) : it.isValid = true ∧ it.current = .key e.1 := by
  unfold MojDbLevelTxnIterator.read at h
  split_ifs at h with hvalid
  refine ⟨hvalid, ?_⟩
  cases hcur : it.current with
  | key k =>
    rw [hcur] at h
    obtain ⟨val, -, rfl⟩ := Option.map_eq_some_iff.mp h
    rfl
  | beforeFirst =>
    rw [hcur] at h
    cases h
  | afterLast =>
    rw [hcur] at h
    cases h

/-- A cursor follows the deletion of the entry it stands on. -/
theorem delClear_own {c : CursorRun MojDbKey LevelVal} (h : c.Ok) {e : MojDbKey × LevelVal}
    (hread : c.merged.read = some e) : c.level.read = some e ∧ c.Clear (.del e.1) := by
  obtain ⟨⟨txn, it⟩, ⟨map, pos⟩⟩ := c
  obtain ⟨hmap, hfollows⟩ := h
  dsimp only at hmap hfollows
  have hpos : pos = .key e.1 ∧ map.find e.1 = some e.2 := by
    unfold MapCursor.read at hread
    dsimp only at hread
    cases pos with
    | key k =>
      obtain ⟨val, hval, rfl⟩ := Option.map_eq_some_iff.mp hread
      exact ⟨rfl, hval⟩
    | beforeFirst => cases hread
    | afterLast => cases hread
  obtain ⟨rfl, hfind⟩ := hpos
  have hmem : on it.fwd (.key e.1) ∈ keysAt it.fwd (allKeys txn) := by
    refine ⟨e.1, txn.mem_merged.mp ?_, rfl⟩
    rw [← hmap, SortedMap.mem_keys, hfind]
    nofun
  have hvalid : it.invalid = false := by
    cases hinv : it.invalid with
    | false => rfl
    | true => exact absurd hmem (hfollows.ahead hinv).2
  have hmin := hfollows.here hvalid
  refine ⟨?_, ?_, ?_⟩
  · have hstands : Stands txn it.fwd it (.key e.1) := ⟨rfl, hvalid, hfollows.aligned, hmin⟩
    rw [LevelCursor.read, MojDbLevelTxnIterator.read_stands txn hstands (.inr hmem), ← hmap]
    exact hread
  · intro hdb
    have hle : on it.fwd it.dbPos ≤ on it.fwd it.insertsPos := by
      rw [hdb, ← hmin]
      exact min_le_right _ _
    cases hle.lt_or_eq with
    | inl hlt => exact .inr ⟨hvalid, hlt⟩
    | inr heq => exact .inl ((Lib.Toward.on_inj.mp heq).symm.trans hdb)
  · intro hins _ hlt
    rw [min_eq_left hlt.le, ← hins] at hmin
    exact hlt.ne hmin

/-! ## Deletions through a cursor -/

section CursorDel

variable {offsetQuota : Q → Int → Except MojErr Q}

theorem cursorDel_eq {name : Nat} {it : MojDbLevelTxnIterator MojDbKey} {e : MojDbKey × LevelVal}
    (hit : t.iterators name = some it) (hread : it.read t.tableTxn = some e) :
    t.cursorDel offsetQuota name =
      match offsetQuota t.quota (-(e.1.length + e.2.length : Nat)) with
      | .error err => (.error err, t.tableDelete e.1)
      | .ok quota => (.ok (), { t.tableDelete e.1 with quota }) := by
  have hkey : it.getKey = some e.1 := by
    rw [MojDbLevelTxnIterator.getKey, (read_eq_some hread).2]
  have hsize : t.recSize it = e.1.length + e.2.length := by
    rw [recSize, hread]
  unfold cursorDel
  rw [hit]
  dsimp only
  rw [hkey]
  dsimp only
  rw [hsize]
  rfl

/-- The entry under a cursor is deleted in both, also when the quota refuses. -/
theorem cursorDel_refines (h : Refines t m) {name : Nat} {it : MojDbLevelTxnIterator MojDbKey} {pos : CursorPos MojDbKey}
    (hit : t.iterators name = some it) (hpos : m.cursors name = some pos) {e : MojDbKey × LevelVal}
    (hread : MapCursor.read ⟨m.map, pos⟩ = some e)
    (hclear : Cursors t m fun other c => other ≠ name → c.Clear (.del e.1)) :
    Refines (t.tableDelete e.1) { m with map := m.map.erase e.1 } ∧ it.read t.tableTxn = some e := by
  obtain ⟨hlevel, hown⟩ := @delClear_own (t.cursorRun it m pos) (h.follow name it pos hit hpos) e hread
  refine ⟨h.tableDelete fun other it' pos' hit' hpos' => ?_, hlevel⟩
  by_cases heq : other = name
  · subst heq
    rw [hit] at hit'
    rw [hpos] at hpos'
    cases hit'
    cases hpos'
    exact hown
  · exact hclear other it' pos' hit' hpos' heq

end CursorDel

/-! ## The walk of delPrefix -/

section DelPrefix

variable {offsetQuota : Q → Int → Except MojErr Q} {name : Nat} {pre : MojDbKey}

/-- The head of the loop: the cursor stands on the first key with the prefix, or behind all of them. -/
structure AtPrefix (t : MojDbLevelEnvTxn Q) (m : MapTxn Q) (name : Nat) (pre : MojDbKey)
    (it : MojDbLevelTxnIterator MojDbKey) : Prop where
  iterator : t.iterators name = some it
  position : m.cursors name = some (m.map.keys.atOrAfter true (.key pre))
  stands : Stands t.tableTxn true it (m.map.keys.atOrAfter true (.key pre))

/-- The other cursors follow all the deletions. -/
def Others (t : MojDbLevelEnvTxn Q) (m : MapTxn Q) (name : Nat) (entries : List (MojDbKey × LevelVal)) : Prop :=
  Cursors t m fun other c => other ≠ name → Along CursorRun.step CursorRun.Clear c (entries.map fun e => .del e.1)

theorem AtPrefix.current {it : MojDbLevelTxnIterator MojDbKey} (h : AtPrefix t m name pre it) :
    it.current = m.map.keys.atOrAfter true (.key pre) := by
  have hcur := on_current it
  rw [h.stands.fwd_eq, h.stands.min_eq] at hcur
  exact Lib.Toward.on_inj.mp hcur

theorem read_atOrAfter {map : SortedMap MojDbKey LevelVal} {e : MojDbKey × LevelVal} {es : List (MojDbKey × LevelVal)}
    (h : entriesWith map pre = e :: es) : MapCursor.read ⟨map, map.keys.atOrAfter true (.key pre)⟩ = some e := by
  have hmem : e ∈ entriesWith map pre := h ▸ List.mem_cons_self
  rw [atOrAfter_of_cons h]
  unfold MapCursor.read
  dsimp only
  rw [(mem_entriesWith.mp hmem).1]
  rfl

/-- After the deletion of the first key with the prefix the cursor moves to the next one. -/
theorem AtPrefix.next {it : MojDbLevelTxnIterator MojDbKey} (h : Refines t m) (hat : AtPrefix t m name pre it)
    {e : MojDbKey × LevelVal} {es : List (MojDbKey × LevelVal)} (hentries : entriesWith m.map pre = e :: es)
    (hothers : Others t m name (e :: es)) {quota : Q} :
    let t' := nextIterator { t.tableDelete e.1 with quota } name
    let m' := MapTxn.setCursor { m with map := m.map.erase e.1, quota } name
      (some ((m.map.erase e.1).keys.atOrAfter true (.key pre)))
    Refines t' m' ∧ (∃ it', AtPrefix t' m' name pre it') ∧ Others t' m' name es := by
  have hread := @read_atOrAfter pre m.map e es hentries
  have hclear : Cursors t m fun other c => other ≠ name → c.Clear (.del e.1) := by
    intro other it' pos' hit' hpos' hne
    have halong := hothers other it' pos' hit' hpos' hne
    rw [List.map_cons, Along.cons_iff] at halong
    exact halong.1
  obtain ⟨hdel, hlevel⟩ := cursorDel_refines h hat.iterator hat.position hread hclear
  have hown : ((t.cursorRun it m (m.map.keys.atOrAfter true (.key pre))).step (.del e.1)).Ok :=
    CursorRun.ok_step _ _ (h.follow name it _ hat.iterator hat.position)
      (delClear_own (h.follow name it _ hat.iterator hat.position) hread).2
  have hfwd : (it.notifyDelete t.tableTxn e.1).fwd = true := by
    have hfollows := hown.follows.fwd_eq
    have hsame := (MojDbLevelTxnIterator.follows_del t.tableTxn
      (h.follow name it _ hat.iterator hat.position).follows e.1
        (delClear_own (h.follow name it _ hat.iterator hat.position) hread).2).fwd_eq
    exact hsame.trans hat.stands.fwd_eq
  obtain ⟨hstands, hmem⟩ := CursorRun.stands_move hown true (fun hne => absurd hfwd hne)
  have hpos : (MapCursor.move true ((t.cursorRun it m (m.map.keys.atOrAfter true (.key pre))).step (.del e.1)).merged).pos =
      (m.map.erase e.1).keys.atOrAfter true (.key pre) := by
    change (m.map.erase e.1).keys.after true (m.map.keys.atOrAfter true (.key pre)) = _
    rw [atOrAfter_of_cons hentries]
    exact after_erase hentries
  rw [hpos] at hstands hmem
  have hiter : (t.tableDelete e.1).iterators name = some (it.notifyDelete t.tableTxn e.1) := by
    change (t.iterators name).map _ = _
    rw [hat.iterator]
    rfl
  intro t' m'
  have ht' : t' = MojDbLevelEnvTxn.setIterator { t.tableDelete e.1 with quota } name
      (some ((it.notifyDelete t.tableTxn e.1).next (t.tableTxn.del e.1))) := by
    change nextIterator { t.tableDelete e.1 with quota } name = _
    unfold nextIterator
    dsimp only
    rw [hiter]
    rfl
  have hok : (cursorRun { t.tableDelete e.1 with quota } ((it.notifyDelete t.tableTxn e.1).next (t.tableTxn.del e.1))
      { m with map := m.map.erase e.1, quota } ((m.map.erase e.1).keys.atOrAfter true (.key pre))).Ok :=
    CursorRun.Moved.ok ⟨hown.map, true, hstands, hmem⟩
  refine ⟨?_, ⟨_, ?_, ?_, hstands⟩, ?_⟩
  · rw [ht']
    exact (hdel.setQuota quota).setIterator name hok
  · rw [ht']
    exact Function.update_self name _ _
  · exact Function.update_self name _ _
  · rw [ht']
    intro other it' pos' hit' hpos' hne
    rw [setIterator_of_ne hne] at hit'
    rw [setCursor_of_ne hne] at hpos'
    obtain ⟨it₀, hit₀, rfl⟩ := Option.map_eq_some_iff.mp hit'
    have halong := hothers other it₀ pos' hit₀ hpos' hne
    rw [List.map_cons, Along.cons_iff] at halong
    exact halong.2

theorem setCursor_setCursor (m : MapTxn Q) (name : Nat) (p q : Option (CursorPos MojDbKey)) :
    (m.setCursor name p).setCursor name q = m.setCursor name q := by
  simp [MapTxn.setCursor]

theorem delEntries_setCursor (entries : List (MojDbKey × LevelVal)) (m : MapTxn Q) (name : Nat)
    (p : Option (CursorPos MojDbKey)) :
    MapTxn.delEntries offsetQuota entries (m.setCursor name p) =
      ((MapTxn.delEntries offsetQuota entries m).1, (MapTxn.delEntries offsetQuota entries m).2.setCursor name p) := by
  induction entries generalizing m with
  | nil => rfl
  | cons e entries ih =>
    obtain ⟨key, val⟩ := e
    unfold MapTxn.delEntries
    dsimp only [MapTxn.setCursor]
    cases offsetQuota m.quota (-(key.length + val.length : Nat)) with
    | error err => rfl
    | ok quota => exact ih { m with map := m.map.erase key, quota }

/-- What the walk leaves. -/
def Walked (offsetQuota : Q → Int → Except MojErr Q) (m : MapTxn Q) (name : Nat) (pre : MojDbKey)
    (r : Except MojErr Unit × MojDbLevelEnvTxn Q) : Prop :=
  match MapTxn.delEntries offsetQuota (entriesWith m.map pre) m with
  | (some (e, key), m') => r.1 = .error e ∧ Refines r.2 (m'.setCursor name (some (.key key)))
  | (none, m') => r.1 = .ok () ∧ Refines r.2 (m'.setCursor name (some (m'.map.keys.atOrAfter true (.key pre))))

theorem setCursor_self {m : MapTxn Q} {name : Nat} {p : Option (CursorPos MojDbKey)} (h : m.cursors name = p) :
    m.setCursor name p = m := by
  rw [MapTxn.setCursor, ← h, Function.update_eq_self]

/-- By induction on the rounds: each deletes the first entry that is left. -/
theorem delPrefixLoop_refines {fuel : Nat} {it : MojDbLevelTxnIterator MojDbKey} (h : Refines t m)
    (hat : AtPrefix t m name pre it) (hothers : Others t m name (entriesWith m.map pre))
    (hfuel : (entriesWith m.map pre).length < fuel) :
    Walked offsetQuota m name pre (delPrefixLoop offsetQuota name pre fuel t) := by
  induction fuel generalizing t m it with
  | zero => exact absurd hfuel (Nat.not_lt_zero _)
  | succ fuel ih =>
    unfold delPrefixLoop Walked
    rw [hat.iterator]
    dsimp only
    cases hentries : entriesWith m.map pre with
    | nil =>
      have hstop : (it.isValid && it.keyStartsWith pre) = false := by
        have hkey : it.keyStartsWith pre = false := by
          unfold MojDbLevelTxnIterator.keyStartsWith MojDbLevelTxnIterator.getKey
          rw [hat.current]
          cases hpos : m.map.keys.atOrAfter true (.key pre) with
          | key k => exact Bool.eq_false_of_not_eq_true fun hpre =>
              atOrAfter_of_nil hentries hpos (List.isPrefixOf_iff_prefix.mp hpre)
          | beforeFirst => rfl
          | afterLast => rfl
        rw [hkey, Bool.and_false]
      rw [hstop, if_neg nofun]
      refine ⟨rfl, ?_⟩
      change Refines t (m.setCursor name _)
      rw [setCursor_self hat.position]
      exact h
    | cons e es =>
      rw [hentries] at hothers hfuel
      have hread := @read_atOrAfter pre m.map e es hentries
      have hclear : Cursors t m fun other c => other ≠ name → c.Clear (.del e.1) := by
        intro other it' pos' hit' hpos' hne
        have halong := hothers other it' pos' hit' hpos' hne
        rw [List.map_cons, Along.cons_iff] at halong
        exact halong.1
      obtain ⟨hdel, hlevel⟩ := cursorDel_refines h hat.iterator hat.position hread hclear
      have hgo : (it.isValid && it.keyStartsWith pre) = true := by
        have hmem : e ∈ entriesWith m.map pre := hentries ▸ List.mem_cons_self
        obtain ⟨hvalid, hcur⟩ := read_eq_some hlevel
        unfold MojDbLevelTxnIterator.keyStartsWith MojDbLevelTxnIterator.getKey
        rw [hvalid, hcur, Bool.true_and]
        exact List.isPrefixOf_iff_prefix.mpr (mem_entriesWith.mp hmem).2
      rw [hgo, if_pos rfl, cursorDel_eq hat.iterator hlevel, MapTxn.delEntries, ← h.quota]
      dsimp only
      cases hquota : offsetQuota m.quota (-(e.1.length + e.2.length : Nat)) with
      | error err =>
        refine ⟨rfl, ?_⟩
        change Refines (t.tableDelete e.1) (MapTxn.setCursor { m with map := m.map.erase e.1 } name (some (.key e.1)))
        have hposition : ({ m with map := m.map.erase e.1 } : MapTxn Q).cursors name = some (.key e.1) := by
          rw [← atOrAfter_of_cons hentries]
          exact hat.position
        rw [setCursor_self hposition]
        exact hdel
      | ok quota =>
        obtain ⟨hnext, ⟨it', hat'⟩, hothers'⟩ := hat.next h hentries hothers 
        have hrest := entriesWith_erase hentries
        have hwalked := ih hnext hat' (by
          change Others _ _ name (entriesWith (m.map.erase e.1) pre)
          rw [hrest]
          exact hothers') (by
          change (entriesWith (m.map.erase e.1) pre).length < fuel
          rw [hrest]
          exact Nat.lt_of_succ_lt_succ hfuel)
        have hleft : entriesWith (MapTxn.setCursor { m with map := m.map.erase e.1, quota } name
            (some ((m.map.erase e.1).keys.atOrAfter true (.key pre)))).map pre = es := hrest
        unfold Walked at hwalked
        rw [hleft, delEntries_setCursor] at hwalked
        dsimp only
        generalize MapTxn.delEntries offsetQuota es { m with map := m.map.erase e.1, quota } = d at hwalked ⊢
        obtain ⟨stop, m'⟩ := d
        cases stop with
        | some stop =>
          obtain ⟨err, key⟩ := stop
          dsimp only at hwalked ⊢
          rw [setCursor_setCursor] at hwalked
          exact hwalked
        | none =>
          dsimp only at hwalked ⊢
          rw [setCursor_setCursor] at hwalked
          exact hwalked

/-- **`delPrefix` removes the entries with the prefix**, one after the other. -/
theorem delPrefix_refines (h : Refines t m) {it : MojDbLevelTxnIterator MojDbKey} (hit : t.iterators name = some it)
    (hothers : Others t m name (entriesWith m.map pre)) :
    .ofExcept (t.delPrefix offsetQuota name pre).1 = (m.delPrefix offsetQuota name pre).1 ∧
      Refines (t.delPrefix offsetQuota name pre).2 (m.delPrefix offsetQuota name pre).2 := by
  obtain ⟨pos, hpos, hok⟩ := h.cursor hit
  have hleast := m.map.keys.atOrAfter_isLeast true (.key pre)
  have hkeys : {k | k ∈ m.map.keys} = allKeys t.tableTxn := CursorRun.keys_merged hok.map
  rw [hkeys] at hleast
  have hstands : Stands t.tableTxn true (.seek t.tableTxn pre) (m.map.keys.atOrAfter true (.key pre)) :=
    MojDbLevelTxnIterator.seek_stands _ hleast
  have hseek : (t.cursorRun (.seek t.tableTxn pre) m (m.map.keys.atOrAfter true (.key pre))).Ok :=
    CursorRun.Moved.ok ⟨hok.map, true, hstands, CursorRun.mem_of_isLeast hleast⟩
  have hat : AtPrefix (t.setIterator name (some (.seek t.tableTxn pre)))
      (m.setCursor name (some (m.map.keys.atOrAfter true (.key pre)))) name pre (.seek t.tableTxn pre) :=
    ⟨Function.update_self name _ _, Function.update_self name _ _, hstands⟩
  have hrest : Others (t.setIterator name (some (.seek t.tableTxn pre)))
      (m.setCursor name (some (m.map.keys.atOrAfter true (.key pre)))) name (entriesWith m.map pre) := by
    intro other it' pos' hit' hpos' hne
    rw [setIterator_of_ne hne] at hit'
    rw [setCursor_of_ne hne] at hpos'
    exact hothers other it' pos' hit' hpos' hne
  have hfuel : (entriesWith m.map pre).length < t.tableTxn.merged.entries.length + 1 := by
    rw [← h.map]
    exact Nat.lt_succ_of_le (List.length_filter_le _ _)
  have hwalked := @delPrefixLoop_refines Q _ _ offsetQuota name pre _ _ (h.setIterator name hseek) hat hrest hfuel
  have hloop : t.delPrefix offsetQuota name pre =
      delPrefixLoop offsetQuota name pre (t.tableTxn.merged.entries.length + 1)
        (t.setIterator name (some (.seek t.tableTxn pre))) := by
    rw [delPrefix, hit]
    rfl
  have hleft : entriesWith (m.setCursor name (some (m.map.keys.atOrAfter true (.key pre)))).map pre =
      entriesWith m.map pre := rfl
  unfold Walked at hwalked
  rw [← hloop, hleft, delEntries_setCursor] at hwalked
  have hspec : m.delPrefix offsetQuota name pre =
      match MapTxn.delEntries offsetQuota (entriesWith m.map pre) m with
      | (some (e, key), m') => (.error e, m'.setCursor name (some (.key key)))
      | (none, m') => (.done, m'.setCursor name (some (m'.map.keys.atOrAfter true (.key pre)))) := rfl
  rw [hspec]
  generalize MapTxn.delEntries offsetQuota (entriesWith m.map pre) m = d at hwalked ⊢
  obtain ⟨stop, m'⟩ := d
  cases stop with
  | some stop =>
    obtain ⟨err, key⟩ := stop
    dsimp only at hwalked ⊢
    rw [setCursor_setCursor] at hwalked
    exact ⟨congrArg TxnResult.ofExcept hwalked.1, hwalked.2⟩
  | none =>
    dsimp only at hwalked ⊢
    rw [setCursor_setCursor] at hwalked
    exact ⟨congrArg TxnResult.ofExcept hwalked.1, hwalked.2⟩

end DelPrefix

/-! ## Operations -/

/-- The operations whose effect the open cursors can follow and whose result tells of the key: only a key that is there is
deleted, and a cursor deletes the entry it stands on. -/
def Clear (t : MojDbLevelEnvTxn Q) (m : MapTxn Q) : TxnOp → Prop
  | .insert id val | .update id val _ => Cursors t m fun _ c => c.Clear (.put id val)
  | .del key => m.map.find key ≠ none ∧ Cursors t m fun _ c => c.Clear (.del key)
  | .cursorGet name flags => Cursors t m fun other c => other = name → c.Clear (.move flags)
  | .cursorDel name => ∀ pos, m.cursors name = some pos → ∃ e, MapCursor.read ⟨m.map, pos⟩ = some e ∧
      Cursors t m fun other c => other ≠ name → c.Clear (.del e.1)
  | .delPrefix name pre => Others t m name (entriesWith m.map pre)
  | .get _ | .openCursor _ | .closeCursor _ => True

section Exec

variable {offsetQuota : Q → Int → Except MojErr Q}

theorem put_refines (h : Refines t m) {key : MojDbKey} {val : LevelVal} {updateIdQuota : Bool} {size : Nat}
    (hsize : size = val.length + if updateIdQuota then key.length else 0)
    (hclear : Cursors t m fun _ c => c.Clear (.put key val)) :
    (t.put offsetQuota key val updateIdQuota).1 = (m.put offsetQuota key val size).1 ∧
      Refines (t.put offsetQuota key val updateIdQuota).2 (m.put offsetQuota key val size).2 := by
  have hcast : (val.length : Int) + ((if updateIdQuota then key.length else 0 : Nat) : Int) = (size : Nat) := by
    rw [hsize, Nat.cast_add]
  unfold put MapTxn.put
  rw [hcast, ← h.quota]
  cases offsetQuota m.quota size with
  | error e => exact ⟨rfl, h⟩
  | ok quota => exact ⟨rfl, (h.tablePut hclear).setQuota quota⟩

theorem update_refines (h : Refines t m) {key : MojDbKey} {val : LevelVal} (oldSize : Nat)
    (hclear : Cursors t m fun _ c => c.Clear (.put key val)) :
    (t.update offsetQuota key val oldSize).1 = (m.update offsetQuota key val oldSize).1 ∧
      Refines (t.update offsetQuota key val oldSize).2 (m.update offsetQuota key val oldSize).2 := by
  unfold update MapTxn.update
  rw [← h.quota]
  cases offsetQuota m.quota (-oldSize) with
  | error e => exact ⟨rfl, h⟩
  | ok quota => exact put_refines (h.setQuota quota) rfl hclear

theorem del_refines (h : Refines t m) {key : MojDbKey} (hfound : m.map.find key ≠ none)
    (hclear : Cursors t m fun _ c => c.Clear (.del key)) :
    (t.del offsetQuota key).1 = (m.del offsetQuota key).1 ∧
      Refines (t.del offsetQuota key).2 (m.del offsetQuota key).2 := by
  unfold del MapTxn.del
  rw [← h.quota]
  cases offsetQuota m.quota (-key.length) with
  | error e => exact ⟨rfl, h⟩
  | ok quota =>
    refine ⟨?_, (h.tableDelete hclear).setQuota quota⟩
    rw [Option.isSome_iff_ne_none.mpr hfound]

theorem cursorGet_refines (h : Refines t m) {name : Nat} {flags : LevelMove MojDbKey}
    (hclear : Cursors t m fun other c => other = name → c.Clear (.move flags)) :
    (t.cursorGet name flags).1 = (m.exec offsetQuota (.cursorGet name flags)).1 ∧
      Refines (t.cursorGet name flags).2 (m.exec offsetQuota (.cursorGet name flags)).2 := by
  unfold cursorGet MapTxn.exec
  dsimp only
  cases hit : t.iterators name with
  | none =>
    rw [h.closed hit]
    exact ⟨rfl, h⟩
  | some it =>
    obtain ⟨pos, hpos, hok⟩ := h.cursor hit
    rw [hpos]
    have hmoved := CursorRun.moved_of_move hok (hclear name it pos hit hpos rfl)
    refine ⟨congrArg TxnResult.entry hmoved.read, h.setIterator name ?_⟩
    have hstep : (t.cursorRun it m pos).step (.move flags) =
        t.cursorRun (LevelCursor.move flags ⟨t.tableTxn, it⟩).it m (mergedMove flags ⟨m.map, pos⟩).pos := by
      cases flags <;> rfl
    rw [← hstep]
    exact hmoved.ok

theorem cursorDel_exec_refines (h : Refines t m) {name : Nat} (hclear : Clear t m (.cursorDel name)) :
    (t.exec offsetQuota (.cursorDel name)).1 = (m.exec offsetQuota (.cursorDel name)).1 ∧
      Refines (t.exec offsetQuota (.cursorDel name)).2 (m.exec offsetQuota (.cursorDel name)).2 := by
  unfold exec MapTxn.exec
  dsimp only
  cases hit : t.iterators name with
  | none =>
    rw [h.closed hit]
    exact ⟨rfl, h⟩
  | some it =>
    obtain ⟨pos, hpos, hok⟩ := h.cursor hit
    obtain ⟨e, hread, hothers⟩ := hclear pos hpos
    obtain ⟨hdel, hlevel⟩ := cursorDel_refines h hit hpos hread hothers
    obtain ⟨key, val⟩ := e
    rw [hpos]
    dsimp only
    rw [hread, cursorDel_eq hit hlevel, ← h.quota]
    dsimp only [MapTxn.delEntries]
    cases offsetQuota m.quota (-(key.length + val.length : Nat)) with
    | error err => exact ⟨rfl, hdel⟩
    | ok quota => exact ⟨rfl, hdel.setQuota quota⟩

/-- **One operation** gives the same result, and the overlay stays what the transaction would leave. -/
theorem exec_refines (h : Refines t m) {op : TxnOp} (hclear : Clear t m op) :
    (t.exec offsetQuota op).1 = (m.exec offsetQuota op).1 ∧
      Refines (t.exec offsetQuota op).2 (m.exec offsetQuota op).2 := by
  cases op with
  | insert id val => exact put_refines h rfl hclear
  | update id val oldSize => exact update_refines h oldSize hclear
  | get key =>
    refine ⟨congrArg TxnResult.value ?_, h⟩
    rw [MojDbLevelTableTxn.get_eq, ← h.map]
  | del key => exact del_refines h hclear.1 hclear.2
  | openCursor name =>
    refine ⟨rfl, h.setIterator name ?_⟩
    exact (CursorRun.moved_toEdge (s := t.cursorRun (.first t.tableTxn) m .beforeFirst) h.map true).ok
  | closeCursor name => exact ⟨rfl, h.closeIterator name⟩
  | cursorGet name flags => exact cursorGet_refines h hclear
  | cursorDel name => exact cursorDel_exec_refines h hclear
  | delPrefix name pre =>
    unfold exec MapTxn.exec
    dsimp only
    cases hit : t.iterators name with
    | none =>
      rw [h.closed hit]
      exact ⟨rfl, h⟩
    | some it =>
      obtain ⟨pos, hpos, -⟩ := h.cursor hit
      rw [hpos]
      exact delPrefix_refines h hit hclear

/-- When `delPrefix` is done, exactly the keys with the prefix are gone. -/
theorem find_delPrefix {name : Nat} {pre : MojDbKey} (hdone : (m.delPrefix offsetQuota name pre).1 = .done) (k : MojDbKey) :
    (m.delPrefix offsetQuota name pre).2.map.find k = if pre <+: k then none else m.map.find k := by
  have herase : ∀ (entries : List (MojDbKey × LevelVal)) (m : MapTxn Q),
      (MapTxn.delEntries offsetQuota entries m).1 = none →
        (MapTxn.delEntries offsetQuota entries m).2.map.find k =
          if k ∈ entries.map Prod.fst then none else m.map.find k := by
    intro entries
    induction entries with
    | nil => exact fun m _ => rfl
    | cons e entries ih =>
      intro m hnone
      obtain ⟨key, val⟩ := e
      unfold MapTxn.delEntries at hnone ⊢
      dsimp only at hnone ⊢
      cases hquota : offsetQuota m.quota (-(key.length + val.length : Nat)) with
      | error err =>
        rw [hquota] at hnone
        cases hnone
      | ok quota =>
        rw [hquota] at hnone
        dsimp only at hnone ⊢
        have hcons : k ∈ ((key, val) :: entries).map Prod.fst ↔ k = key ∨ k ∈ entries.map Prod.fst := by
          rw [List.map_cons, List.mem_cons]
        rw [ih _ hnone, SortedMap.find_erase]
        by_cases hin : k ∈ entries.map Prod.fst
        · rw [if_pos hin, if_pos (hcons.mpr (.inr hin))]
        · by_cases hk : k = key
          · rw [if_neg hin, if_pos hk, if_pos (hcons.mpr (.inl hk))]
          · rw [if_neg hin, if_neg hk, if_neg fun hmem => (hcons.mp hmem).elim hk hin]
  have hmem : k ∈ (entriesWith m.map pre).map Prod.fst ↔ m.map.find k ≠ none ∧ pre <+: k := by
    rw [List.mem_map]
    constructor
    · intro hex
      obtain ⟨e, he, rfl⟩ := hex
      obtain ⟨hfind, hpre⟩ := mem_entriesWith.mp he
      exact ⟨by rw [hfind]; nofun, hpre⟩
    · intro hfind
      obtain ⟨v, hv⟩ := Option.ne_none_iff_exists'.mp hfind.1
      exact ⟨(k, v), mem_entriesWith.mpr ⟨hv, hfind.2⟩, rfl⟩
  have hlist := herase (entriesWith m.map pre) m
  have hspec : m.delPrefix offsetQuota name pre =
      match MapTxn.delEntries offsetQuota (entriesWith m.map pre) m with
      | (some (e, key), m') => (.error e, m'.setCursor name (some (.key key)))
      | (none, m') => (.done, m'.setCursor name (some (m'.map.keys.atOrAfter true (.key pre)))) := rfl
  rw [hspec] at hdone ⊢
  generalize MapTxn.delEntries offsetQuota (entriesWith m.map pre) m = d at hlist hdone ⊢
  obtain ⟨stop, m'⟩ := d
  cases stop with
  | some stop => cases hdone
  | none =>
    refine (hlist rfl).trans ?_
    by_cases hpre : pre <+: k
    · rw [if_pos hpre]
      split_ifs with hk
      · rfl
      · by_contra hfind
        exact hk (hmem.mpr ⟨hfind, hpre⟩)
    · rw [if_neg hpre, if_neg fun hk => hpre (hmem.mp hk).2]

end Exec

end MojDbLevelEnvTxn

/-! ## Runs -/

/-- The database of the code and the map, side by side. -/
structure LevelRun (Q : Type*) where
  level : Txns (MojDbLevelEnvTxn Q)
  map : Txns (MapTxn Q)

namespace LevelRun

open MojDbLevelEnvTxn (Refines)

variable {Q : Type*} (offsetQuota : Q → Int → Except MojErr Q)

def init (db : SortedMap MojDbKey LevelVal) : LevelRun Q := ⟨⟨db, none⟩, ⟨db, none⟩⟩

def step (s : LevelRun Q) (op : DbOp Q) : LevelRun Q where
  level := (s.level.exec (levelEngine offsetQuota) op).2
  map := (s.map.exec (mapEngine offsetQuota) op).2

def Clear (s : LevelRun Q) : DbOp Q → Prop
  | .txn op => ∀ t m, s.level.txn = some t → s.map.txn = some m → t.Clear m op
  | .beginTxn _ | .commit | .abort => True

/-- The same content is committed, and a transaction is open in both or in none. -/
structure Ok (s : LevelRun Q) : Prop where
  db : s.level.db = s.map.db
  txn : (s.level.txn = none ∧ s.map.txn = none) ∨
    ∃ t m, s.level.txn = some t ∧ s.map.txn = some m ∧ Refines t m

variable {offsetQuota}

theorem ok_init (db : SortedMap MojDbKey LevelVal) : (init db : LevelRun Q).Ok := ⟨rfl, .inl ⟨rfl, rfl⟩⟩

theorem exec_step (s : LevelRun Q) (op : DbOp Q) (h : s.Ok) (hclear : s.Clear op) :
    (s.level.exec (levelEngine offsetQuota) op).1 = (s.map.exec (mapEngine offsetQuota) op).1 ∧
      (s.step offsetQuota op).Ok := by
  obtain ⟨⟨db, txn⟩, ⟨db', txn'⟩⟩ := s
  obtain ⟨hdb, htxn⟩ := h
  dsimp only at hdb htxn
  subst hdb
  cases htxn with
  | inl hnone =>
    obtain ⟨rfl, rfl⟩ := hnone
    cases op with
    | beginTxn quota =>
      exact ⟨rfl, rfl, .inr ⟨_, _, rfl, rfl, MojDbLevelEnvTxn.refines_begin db quota⟩⟩
    | txn op => exact ⟨rfl, rfl, .inl ⟨rfl, rfl⟩⟩
    | commit => exact ⟨rfl, rfl, .inl ⟨rfl, rfl⟩⟩
    | abort => exact ⟨rfl, rfl, .inl ⟨rfl, rfl⟩⟩
  | inr hopen =>
    obtain ⟨t, m, rfl, rfl, hrefines⟩ := hopen
    cases op with
    | beginTxn quota => exact ⟨rfl, rfl, .inr ⟨t, m, rfl, rfl, hrefines⟩⟩
    | txn op =>
      obtain ⟨hresult, hnext⟩ := MojDbLevelEnvTxn.exec_refines  hrefines (hclear t m rfl rfl)
      exact ⟨hresult, rfl, .inr ⟨_, _, rfl, rfl, hnext⟩⟩
    | commit => exact ⟨rfl, hrefines.map.symm, .inl ⟨rfl, rfl⟩⟩
    | abort => exact ⟨rfl, rfl, .inl ⟨rfl, rfl⟩⟩

theorem ok_step (s : LevelRun Q) (op : DbOp Q) (h : s.Ok) (hclear : s.Clear op) : (s.step offsetQuota op).Ok :=
  (exec_step s op h hclear).2

/-- **Successive transactions are those of a finite map with an overlay.** In a run whose operations are all clear each one
has the same result and leaves the same content committed, and after a `delPrefix` that is done exactly the keys with the
prefix are gone. -/
theorem results_of_run (offsetQuota : Q → Int → Except MojErr Q) (db : SortedMap MojDbKey LevelVal) (ops : List (DbOp Q))
    (h : Along (step offsetQuota) Clear (init db) ops) {before : List (DbOp Q)} {op : DbOp Q}
    (hbefore : before ++ [op] <+: ops) :
    let s := run (step offsetQuota) (init db) before
    (s.level.exec (levelEngine offsetQuota) op).1 = (s.map.exec (mapEngine offsetQuota) op).1 ∧
    (s.step offsetQuota op).level.db = (s.step offsetQuota op).map.db ∧
    ∀ t name pre, s.level.txn = some t → op = .txn (.delPrefix name pre) → (t.exec offsetQuota (.delPrefix name pre)).1 = .done →
      ∀ k, (t.exec offsetQuota (.delPrefix name pre)).2.tableTxn.get k = if pre <+: k then none else t.tableTxn.get k := by
  intro s
  have halong := h.of_isPrefix hbefore
  have hok : s.Ok := halong.of_append.invariant Ok ok_step (ok_init db)
  have hclear : s.Clear op := halong.last
  obtain ⟨hresult, hnext⟩ := exec_step  s op hok hclear
  refine ⟨hresult, hnext.db, fun t name pre ht hop hdone k => ?_⟩
  subst hop
  cases hok.txn with
  | inl hnone =>
    rw [ht] at hnone
    cases hnone.1
  | inr hopen =>
    obtain ⟨t', m, ht', hm, hrefines⟩ := hopen
    cases Option.some.inj (ht.symm.trans ht')
    obtain ⟨hsame, hafter⟩ :=
      MojDbLevelEnvTxn.exec_refines  hrefines (hclear t m ht hm)
    rw [hsame] at hdone
    rw [MojDbLevelTableTxn.get_eq, ← hafter.map, MojDbLevelTableTxn.get_eq, ← hrefines.map]
    unfold MapTxn.exec at hdone ⊢
    dsimp only at hdone ⊢
    cases hpos : m.cursors name with
    | none =>
      rw [hpos] at hdone
      cases hdone
    | some pos =>
      rw [hpos] at hdone
      exact MojDbLevelEnvTxn.find_delPrefix hdone k

/-! ### Two transactions -/

/-- A quota that never refuses. -/
def noQuota (quota : Unit) (_ : Int) : Except MojErr Unit := .ok quota

/-- Two entries are committed, and in a second transaction there is a cursor. -/
def prefixOps : List (DbOp Unit) :=
  [.beginTxn (), .txn (.insert [1] [7]), .txn (.insert [1, 255] [8]), .commit, .beginTxn (), .txn (.openCursor 0)]

theorem results_of_prefixOps :
    let s := run (step noQuota) (init .empty) prefixOps
    (s.level.exec (levelEngine noQuota) (.txn (.delPrefix 0 [1]))).1 =
      (s.map.exec (mapEngine noQuota) (.txn (.delPrefix 0 [1]))).1 := by
  refine (results_of_run noQuota .empty (prefixOps ++ [.txn (.delPrefix 0 [1])]) ?_ (List.prefix_refl _)).1
  refine ⟨trivial, ?_, ?_, trivial, trivial, ?_, ?_, trivial⟩
  · intro t m ht _ name it pos hit
    cases ht
    cases hit
  · intro t m ht _ name it pos hit
    cases ht
    cases hit
  · intro t m _ _
    trivial
  · intro t m ht _ other it pos hit _ hne
    cases ht
    cases (MojDbLevelEnvTxn.setIterator_of_ne hne).symm.trans hit

/-- A key that was never put is found when it is deleted. -/
theorem not_found_of_absent :
    let s := run (step noQuota) (init .empty) [.beginTxn ()]
    (s.level.exec (levelEngine noQuota) (.txn (.del [1]))).1 = .found true ∧
      (s.map.exec (mapEngine noQuota) (.txn (.del [1]))).1 = .found false := by
  decide

end LevelRun

end Db8
