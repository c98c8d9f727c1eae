import Db8.Core.MojObjectWriter
import Db8.Lib.SortedSet

/-!
# Db.MojDbKey

Index keys, ranges of keys, and the builder that combines sets of key parts.

* `MojDbKey.assign`         — the bytes of a value, or of the sort key of a collated string.
* `prefixOf_iff`            — `increment` closes the range of the keys that begin with a key.
* `MojDbKeyBuilder.mem_keys` — the built keys are the concatenations of one part from each set.
-/

namespace Db8

open Lib

abbrev MojDbKey := List MojByte

abbrev KeySet := SortedSet MojDbKey

/-- `MojDbCollationStrength` without `MojDbCollationInvalid`, which is `none` where it may occur. -/
inductive MojDbCollationStrength where
  | primary | secondary | tertiary | quaternary | identical
  deriving DecidableEq

/-- The text services of one locale: the sort keys of `MojDbTextCollator` without the closing NUL,
and the words `MojDbTextTokenizer` finds in a text. -/
structure MojDbText where
  sortKey : MojDbCollationStrength → MojString → MojString
  words : MojString → List MojString

namespace MojDbText

/-- `MojDbTextCollator::sortKey` writes the sort key as a string value. -/
def collate (text : MojDbText) : Option MojDbCollationStrength → MojObject → MojObject
  | some strength, .string s => .string (text.sortKey strength s)
  | _, o => o

end MojDbText

namespace MojDbKey

def assign (text : MojDbText) (coll : Option MojDbCollationStrength) (obj : MojObject) : MojDbKey :=
  (text.collate coll obj).toBytes

def incrementRev : List MojByte → List MojByte
  | [] => []
  | b :: bs => if b < 255 then (b + 1) :: bs else incrementRev bs

/-- From the end of the key: bytes `0xFF` are popped, the first byte below that is incremented. -/
def increment (key : MojDbKey) : MojDbKey := (incrementRev key.reverse).reverse

theorem incrementRev_append (bs : List MojByte) (b : MojByte) :
    incrementRev (bs ++ [b]) =
      if incrementRev bs = [] then (if b < 255 then [b + 1] else []) else incrementRev bs ++ [b] := by
  induction bs with
  | nil => simp [incrementRev]
  | cons c bs ih =>
    by_cases hc : c < 255
    · simp [incrementRev, hc]
    · simp only [List.cons_append, incrementRev, hc, if_false, ih]

@[simp] theorem increment_nil : increment [] = [] := rfl

theorem increment_cons (b : MojByte) (bs : MojDbKey) :
    increment (b :: bs) =
      if increment bs = [] then (if b < 255 then [b + 1] else []) else b :: increment bs := by
  unfold increment
  rw [List.reverse_cons, incrementRev_append]
  split_ifs <;> simp_all

/-- The upper bound of a range: an empty key bounds nothing. -/
def Below (key bound : MojDbKey) : Prop := bound = [] ∨ key < bound

instance (key bound : MojDbKey) : Decidable (Below key bound) :=
  inferInstanceAs (Decidable (bound = [] ∨ key < bound))

theorem lt_succ_iff {b c : MojByte} (hb : b < 255) : c < b + 1 ↔ c ≤ b := by
  have hval : (b + 1 : MojByte).val = b.val + 1 := Fin.val_add_one_of_lt hb
  rw [Fin.lt_def, Fin.le_def, hval, Nat.lt_succ_iff]

/-- The keys that begin with `u` are those from `u` up to its increment. -/
theorem prefix_iff {u k : MojDbKey} : u <+: k ↔ u ≤ k ∧ Below k (increment u) := by
  induction u generalizing k with
  | nil => simp [Below]
  | cons b u ih =>
    cases k with
    | nil => simp
    | cons c k =>
      rw [List.cons_prefix_cons, ih, cons_le_cons_iff, increment_cons]
      by_cases hu : increment u = []
      · by_cases hb : b < 255
        · have hbelow : Below (c :: k) [b + 1] ↔ c ≤ b := by
            simp [Below, List.cons_lt_cons_iff, lt_succ_iff hb]
          rw [if_pos hu, if_pos hb, hbelow]
          constructor
          · rintro ⟨rfl, hle, -⟩
            exact ⟨.inr ⟨rfl, hle⟩, le_refl b⟩
          · rintro ⟨hbc | ⟨rfl, hle⟩, hcb⟩
            exacts [absurd hbc (not_lt.mpr hcb), ⟨rfl, hle, .inl hu⟩]
        · have hb' : ¬ b < c := fun hbc => hb (hbc.trans_le (Fin.le_last c))
          simp [hu, hb, hb', Below]
      · simp only [hu, if_false, Below, List.cons_lt_cons_iff, false_or, reduceCtorEq]
        constructor
        · rintro ⟨rfl, hle, hlt⟩
          exact ⟨.inr ⟨rfl, hle⟩, .inr ⟨rfl, hlt⟩⟩
        · rintro ⟨hbc | ⟨rfl, hle⟩, hlt⟩
          · rcases hlt with hcb | ⟨rfl, -⟩
            exacts [absurd hbc hcb.asymm, absurd hbc (lt_irrefl c)]
          · exact ⟨rfl, hle, by simpa using hlt⟩

theorem increment_ne_nil {b : MojByte} {bs : MojDbKey} (hb : b < 255) : increment (b :: bs) ≠ [] := by
  rw [increment_cons]
  split_ifs <;> simp

/-- Below the increment of `u` are the keys below `u` and those that begin with it. -/
theorem lt_increment_iff {u k : MojDbKey} (hu : increment u ≠ []) :
    k < increment u ↔ k < u ∨ u <+: k := by
  have hbelow : ∀ {j}, Below j (increment u) ↔ j < increment u := by simp [Below, hu]
  constructor
  · intro hlt
    rcases lt_or_ge k u with h | h
    exacts [.inl h, .inr (prefix_iff.mpr ⟨h, hbelow.mpr hlt⟩)]
  · rintro (h | h)
    · exact h.trans (hbelow.mp (prefix_iff.mp (List.prefix_refl u)).2)
    · exact hbelow.mp (prefix_iff.mp h).2

theorem increment_toBytes_ne_nil (a : MojObject) : increment a.toBytes ≠ [] := by
  obtain ⟨x, u, hx, -, hhi⟩ := MojObject.toBytes_first a
  have hmax : ∀ t, (MojObject.firstMarkers t).2 < 255 := by intro t; cases t <;> decide
  rw [hx]
  exact increment_ne_nil (hhi.trans_lt (hmax a.type))

/-- The increment of an extension, when the extension itself has one. -/
theorem increment_append {p y : MojDbKey} (hy : increment y ≠ []) :
    increment (p ++ y) = p ++ increment y := by
  induction p with
  | nil => rfl
  | cons b p ih =>
    have hne : increment (p ++ y) ≠ [] := by
      rw [ih]
      exact List.append_ne_nil_of_right_ne_nil p hy
    rw [List.cons_append, increment_cons, if_neg hne, ih, List.cons_append]

/-- Keys from an extension of `p` on that are below the increment of `p`. -/
theorem between_increment_iff {p x k : MojDbKey} (hp : increment p ≠ []) :
    p ++ x ≤ k ∧ k < increment p ↔ ∃ rest, k = p ++ rest ∧ x ≤ rest := by
  have hbelow : Below k (increment p) ↔ k < increment p := by simp [Below, hp]
  constructor
  · rintro ⟨hle, hlt⟩
    have hpre : p ≤ k := (le_of_isPrefix (List.prefix_append p x)).trans hle
    obtain ⟨rest, rfl⟩ := prefix_iff.mpr ⟨hpre, hbelow.mpr hlt⟩
    exact ⟨rest, rfl, append_le_append_iff.mp hle⟩
  · rintro ⟨rest, rfl, hle⟩
    exact ⟨append_le_append_iff.mpr hle,
      hbelow.mp (prefix_iff.mp (List.prefix_append p rest)).2⟩

end MojDbKey

/-! ## Ranges -/

structure MojDbKeyRange where
  lowerKey : MojDbKey
  upperKey : MojDbKey
  group : Nat
  deriving DecidableEq

namespace MojDbKeyRange

/-- `key(idx)`: the lower key for `IdxLower`, the upper key for `IdxUpper`. -/
def key (range : MojDbKeyRange) (idxUpper : Bool) : MojDbKey :=
  if idxUpper then range.upperKey else range.lowerKey

def setKey (range : MojDbKeyRange) (idxUpper : Bool) (key : MojDbKey) : MojDbKeyRange :=
  if idxUpper then { range with upperKey := key } else { range with lowerKey := key }

def contains (range : MojDbKeyRange) (key : MojDbKey) : Bool :=
  (range.lowerKey = [] ∨ range.lowerKey ≤ key) ∧ (range.upperKey = [] ∨ key < range.upperKey)

def containsRange (outer range : MojDbKeyRange) : Bool :=
  outer.contains range.lowerKey ∧ (outer.upperKey = [] ∨ range.upperKey ≤ outer.upperKey)

theorem contains_iff {range : MojDbKeyRange} {key : MojDbKey} :
    range.contains key = true ↔ range.lowerKey ≤ key ∧ MojDbKey.Below key range.upperKey := by
  simp only [contains, decide_eq_true_eq, MojDbKey.Below]
  constructor
  · rintro ⟨h | h, hu⟩
    exacts [⟨h ▸ nil_le key, hu⟩, ⟨h, hu⟩]
  · rintro ⟨h, hu⟩
    exact ⟨.inr h, hu⟩

end MojDbKeyRange

/-! ## Combining sets of key parts -/

namespace MojDbKeyBuilder

/-- The walk over the stack of value sets visits one value of each set, the last set the fastest. -/
def combinations : List KeySet → List MojDbKey
  | [] => [[]]
  | vals :: stack => vals.elems.flatMap fun val => (combinations stack).map (val ++ ·)

def keys (stack : List KeySet) : KeySet :=
  if stack.isEmpty then .empty else .ofList (combinations stack)

theorem mem_combinations {stack : List KeySet} {key : MojDbKey} :
    key ∈ combinations stack ↔ ∃ parts, List.Forall₂ (· ∈ ·) parts stack ∧ key = parts.flatten := by
  induction stack generalizing key with
  | nil => simp [combinations]
  | cons vals stack ih =>
    simp only [combinations, List.mem_flatMap, List.mem_map, ih, List.forall₂_cons_right_iff]
    constructor
    · rintro ⟨val, hval, _, ⟨parts, hparts, rfl⟩, rfl⟩
      exact ⟨val :: parts, ⟨val, parts, hval, hparts, rfl⟩, by simp⟩
    · rintro ⟨_, ⟨val, parts, hval, hparts, rfl⟩, rfl⟩
      exact ⟨val, hval, _, ⟨parts, hparts, rfl⟩, by simp⟩

theorem mem_keys {stack : List KeySet} (hstack : stack ≠ []) {key : MojDbKey} :
    key ∈ keys stack ↔ ∃ parts, List.Forall₂ (· ∈ ·) parts stack ∧ key = parts.flatten := by
  rw [keys, if_neg (by simpa using hstack), SortedSet.mem_ofList, mem_combinations]

theorem mem_combinations_concat {stack : List KeySet} {vals : KeySet} {key : MojDbKey} :
    key ∈ combinations (stack ++ [vals]) ↔
      ∃ p ∈ combinations stack, ∃ part ∈ vals, key = p ++ part := by
  induction stack generalizing key with
  | nil => simp [combinations, SortedSet.mem_def]
  | cons first stack ih =>
    simp only [List.cons_append, combinations, List.mem_flatMap, List.mem_map, ih]
    constructor
    · rintro ⟨val, hval, _, ⟨p, hp, part, hpart, rfl⟩, rfl⟩
      exact ⟨val ++ p, ⟨val, hval, p, hp, rfl⟩, part, hpart, by rw [List.append_assoc]⟩
    · rintro ⟨_, ⟨val, hval, p, hp, rfl⟩, part, hpart, rfl⟩
      exact ⟨val, hval, p ++ part, ⟨p, hp, part, hpart, rfl⟩, by rw [List.append_assoc]⟩

theorem mem_keys_concat {stack : List KeySet} (hstack : stack ≠ []) {vals : KeySet} {key : MojDbKey} :
    key ∈ keys (stack ++ [vals]) ↔ ∃ p ∈ keys stack, ∃ part ∈ vals, key = p ++ part := by
  have hne : (stack ++ [vals]).isEmpty = false := by simp
  have hne' : stack.isEmpty = false := by simpa using hstack
  simp only [keys, hne, hne', Bool.false_eq_true, if_false, SortedSet.mem_ofList]
  exact mem_combinations_concat

/-- Parts that are serializations of values are told apart in their concatenation. -/
theorem flatten_inj_of_coded {parts parts' : List MojDbKey} {s t : List MojByte}
    (hparts : ∀ part ∈ parts, ∃ o : MojObject, part = o.toBytes)
    (hparts' : ∀ part ∈ parts', ∃ o : MojObject, part = o.toBytes)
    (hlen : parts.length = parts'.length) (h : parts.flatten ++ s = parts'.flatten ++ t) :
    parts = parts' ∧ s = t := by
  induction parts generalizing parts' with
  | nil =>
    obtain rfl := List.length_eq_zero_iff.mp hlen.symm
    exact ⟨rfl, by simpa using h⟩
  | cons part parts ih =>
    cases parts' with
    | nil => simp at hlen
    | cons part' parts' =>
      obtain ⟨o, rfl⟩ := hparts part (by simp)
      obtain ⟨o', rfl⟩ := hparts' part' (by simp)
      simp only [List.flatten_cons, List.append_assoc] at h
      obtain ⟨hpart, hrest⟩ := MojObject.toBytes_prefix_free h
      obtain ⟨htail, hst⟩ := ih (fun p hp => hparts p (by simp [hp]))
        (fun p hp => hparts' p (by simp [hp])) (by simpa using hlen) hrest
      exact ⟨by rw [hpart, htail], hst⟩

theorem forall₂_coded {stack : List KeySet} {parts : List MojDbKey}
    (hcoded : ∀ vals ∈ stack, ∀ part ∈ vals, ∃ o : MojObject, part = o.toBytes)
    (h : List.Forall₂ (· ∈ ·) parts stack) : ∀ part ∈ parts, ∃ o : MojObject, part = o.toBytes := by
  induction h with
  | nil => simp
  | cons hpart _ ih =>
    intro p hp
    rcases List.mem_cons.mp hp with rfl | hp
    exacts [hcoded _ (by simp) _ hpart, ih (fun vals hvals => hcoded vals (by simp [hvals])) p hp]

/-- No combination begins another, when the parts are serializations of values. -/
theorem keys_prefix_free {stack : List KeySet}
    (hcoded : ∀ vals ∈ stack, ∀ part ∈ vals, ∃ o : MojObject, part = o.toBytes) {p q : MojDbKey}
    (hp : p ∈ keys stack) (hq : q ∈ keys stack) (h : p <+: q) : p = q := by
  have hstack : stack ≠ [] := by
    rintro rfl
    exact SortedSet.not_mem_empty _ hp
  obtain ⟨parts, hparts, rfl⟩ := (mem_keys hstack).mp hp
  obtain ⟨parts', hparts', rfl⟩ := (mem_keys hstack).mp hq
  obtain ⟨t, ht⟩ := h
  have hlen : parts.length = parts'.length := hparts.length_eq.trans hparts'.length_eq.symm
  obtain ⟨rfl, -⟩ := flatten_inj_of_coded (s := t) (t := []) (forall₂_coded hcoded hparts)
    (forall₂_coded hcoded hparts') hlen (by simpa using ht)
  rfl

/-- The keys of a stack that ends with a single value are those of the stack, in order, each with
the value behind it. -/
theorem keys_concat_singleton {stack : List KeySet} (hstack : stack ≠ [])
    (hcoded : ∀ vals ∈ stack, ∀ part ∈ vals, ∃ o : MojObject, part = o.toBytes) (val : MojDbKey) :
    (keys (stack ++ [.ofList [val]])).elems = (keys stack).elems.map (· ++ val) := by
  have hsorted : ((keys stack).elems.map (· ++ val)).Pairwise (· < ·) := by
    refine List.pairwise_map.mpr ((keys stack).sorted.imp_of_mem fun {p q} hp hq hlt => ?_)
    exact append_lt_append_of_not_isPrefix hlt
      (fun hpre => hlt.ne (keys_prefix_free hcoded hp hq hpre)) val val
  have heq : keys (stack ++ [.ofList [val]]) = ⟨_, hsorted⟩ := by
    ext key
    rw [mem_keys_concat hstack]
    simp only [SortedSet.mem_ofList, List.mem_singleton, exists_eq_left]
    exact ⟨fun ⟨p, hp, he⟩ => List.mem_map.mpr ⟨p, hp, he.symm⟩,
      fun h => (List.mem_map.mp h).imp fun p ⟨hp, he⟩ => ⟨hp, he.symm⟩⟩
  rw [heq]

end MojDbKeyBuilder

end Db8
