import Db8.Core.MojJson

/-!
# Core.MojJsonCode

The JSON texts of values as a code: what a text that follows another one begins with tells where that one ends.

* `unescape`, `width`    — the character an escape stands for, and how many characters the escape has.
* `NotNumber`            — what may follow a number.
* `jsonText_append_inj`  — two texts with something behind each are the same only for the same value.
* `jsonText_prefix_free` — of the texts of two objects, neither begins with the other.
-/

namespace Db8

open MojJsonParser

namespace MojJsonWriter

/-! ## Strings -/

/-- How many characters of a text are the first one of a string. -/
def width : List MojByte → Nat
  | c :: d :: _ => if c = backslash then (if d = ch 'u' then 6 else 2) else 1
  | _ => 1

/-- The character that an escape stands for. -/
def unescape : List MojByte → MojByte
  | [_, _, _, _, x, y] => Fin.ofNat 256 (hexDigit x * 16 + hexDigit y)
  | [_, c] => (escapeChar c).getD 0
  | c :: _ => c
  | [] => 0

theorem unescape_escape (c : MojByte) : unescape (escape c) = c := by
  revert c
  decide +kernel

theorem width_escape (c : MojByte) (r : List MojByte) : width (escape c ++ r) = (escape c).length := by
  have hforms : ∀ c, (∃ b, b ≠ backslash ∧ escape c = [b]) ∨ 2 ≤ (escape c).length ∧ width (escape c) = (escape c).length := by
    intro c
    by_cases hlen : (escape c).length = 1
    · obtain ⟨b, hb⟩ := List.length_eq_one_iff.mp hlen
      have hne : ∀ c, (escape c).length = 1 → (escape c).head? ≠ some backslash := by decide +kernel
      exact .inl ⟨b, fun he => hne c hlen (by rw [hb, he]; rfl), hb⟩
    · have hwide : ∀ c, (escape c).length ≠ 1 → 2 ≤ (escape c).length ∧ width (escape c) = (escape c).length := by
        decide +kernel
      exact .inr (hwide c hlen)
  cases hforms c with
  | inl h =>
    obtain ⟨b, hne, hb⟩ := h
    rw [hb]
    cases r with
    | nil => rfl
    | cons d r => exact if_neg hne
  | inr h =>
    obtain ⟨hlen, hwidth⟩ := h
    match hesc : escape c, hlen with
    | a :: d :: rest, _ => rw [← hesc, ← hwidth, hesc]; rfl

theorem escape_append_inj {c d : MojByte} {r s : List MojByte} (h : escape c ++ r = escape d ++ s) : c = d ∧ r = s := by
  have hlen : (escape c).length = (escape d).length := by rw [← width_escape c r, h, width_escape]
  obtain ⟨hescape, hrest⟩ := List.append_inj h hlen
  exact ⟨by rw [← unescape_escape c, hescape, unescape_escape], hrest⟩

theorem escape_ne_quote (c : MojByte) (r : List MojByte) : ∃ b rest, escape c ++ r = b :: rest ∧ b ≠ quote := by
  have hhead : ∀ c, ∃ b ∈ (escape c).head?, b ≠ quote := by decide +kernel
  obtain ⟨b, hb, hne⟩ := hhead c
  obtain ⟨rest, hrest⟩ := List.head?_eq_some_iff.mp hb
  exact ⟨b, rest ++ r, by rw [hrest, List.cons_append], hne⟩

theorem escapes_append_inj {cs ds r s : List MojByte}
    (h : cs.flatMap escape ++ quote :: r = ds.flatMap escape ++ quote :: s) : cs = ds ∧ r = s := by
  induction cs generalizing ds with
  | nil =>
    cases ds with
    | nil => exact ⟨rfl, (List.cons.inj h).2⟩
    | cons d ds =>
      obtain ⟨b, rest, hb, hne⟩ := escape_ne_quote d (ds.flatMap escape ++ quote :: s)
      rw [List.flatMap_cons, List.append_assoc, hb] at h
      exact absurd (List.cons.inj h).1.symm hne
  | cons c cs ih =>
    cases ds with
    | nil =>
      obtain ⟨b, rest, hb, hne⟩ := escape_ne_quote c (cs.flatMap escape ++ quote :: r)
      rw [List.flatMap_cons, List.append_assoc, hb] at h
      exact absurd (List.cons.inj h).1 hne
    | cons d ds =>
      rw [List.flatMap_cons, List.flatMap_cons, List.append_assoc, List.append_assoc] at h
      obtain ⟨hchar, hrest⟩ := escape_append_inj h
      obtain ⟨hchars, hrest⟩ := ih hrest
      exact ⟨by rw [hchar, hchars], hrest⟩

theorem writeString_append_inj {a b : MojString} {r s : List MojByte} (h : writeString a ++ r = writeString b ++ s) :
    a = b ∧ r = s := by
  simp only [writeString, List.cons_append, List.append_assoc, List.cons.injEq, true_and] at h
  obtain ⟨hchars, hrest⟩ := escapes_append_inj h
  cases a
  cases b
  exact ⟨by simpa using hchars, hrest⟩

end MojJsonWriter

namespace MojObject

open MojJsonWriter

/-! ## Numbers -/

/-- What follows does not go on with a number. -/
def NotNumber (r : List MojByte) : Prop := ∀ c ∈ r.head?, isNumberChar c = false

theorem number_append_inj {t u r s : List MojByte} (ht : ∀ c ∈ t, isNumberChar c = true)
    (hu : ∀ c ∈ u, isNumberChar c = true) (hr : NotNumber r) (hs : NotNumber s) (h : t ++ r = u ++ s) : t = u ∧ r = s := by
  have hspan : ∀ {t r : List MojByte}, (∀ c ∈ t, isNumberChar c = true) → NotNumber r →
      (t ++ r).takeWhile isNumberChar = t := by
    intro t r ht hr
    rw [List.takeWhile_append_of_pos ht]
    cases r with
    | nil => simp
    | cons c r => simp [hr c rfl]
  obtain rfl : t = u := by rw [← hspan ht hr, h, hspan hu hs]
  exact ⟨rfl, List.append_cancel_left h⟩

/-- A sign, if any, and a digit in front of characters of a number, as all numbers are written but the least decimal. -/
def Signed (t : List MojByte) : Prop :=
  ∃ (negative : Bool) (d : Nat) (cs : List MojByte), d < 10 ∧ (∀ c ∈ cs, isNumberChar c = true) ∧
    t = (if negative then [ch '-'] else []) ++ digitChar d :: cs

theorem Signed.number {t : List MojByte} (h : Signed t) : ∀ c ∈ t, isNumberChar c = true := by
  obtain ⟨negative, d, cs, hd, hcs, rfl⟩ := h
  intro c hc
  cases List.mem_append.mp hc with
  | inl hc =>
    split_ifs at hc
    · exact List.mem_singleton.mp hc ▸ by decide
    · cases hc
  | inr hc =>
    cases List.mem_cons.mp hc with
    | inl hc => exact hc ▸ isNumberChar_digitChar hd
    | inr hc => exact hcs c hc

theorem least_text : ∃ rest, MojDecimal.least.stringValue = ch '-' :: 39 :: rest := ⟨_, rfl⟩

/-- The least decimal has a sign and no digit behind it. -/
theorem Signed.ne_least {t : List MojByte} (h : Signed t) (r s : List MojByte) :
    t ++ r ≠ MojDecimal.least.stringValue ++ s := by
  obtain ⟨negative, d, cs, hd, -, rfl⟩ := h
  obtain ⟨rest, hrest⟩ := least_text
  intro he
  rw [hrest] at he
  cases negative with
  | true => exact digitChar_ne hd (by decide) (List.cons.inj (List.cons.inj he).2).1
  | false => exact digitChar_ne hd (by decide) (List.cons.inj he).1

theorem signed_intText (i : Int64) : Signed (intText i) := by
  obtain ⟨d, ds, hlt, htext⟩ := intText_signed i
  exact ⟨decide (i < 0), d, ds.map digitChar, hlt d List.mem_cons_self,
    isNumberChar_map fun e he => hlt e (List.mem_cons_of_mem d he), htext⟩

theorem signed_stringValue {d : MojDecimal} (h : d ≠ MojDecimal.least) : Signed d.stringValue := by
  obtain ⟨e, ds, es, hds, hes, htext⟩ := stringValue_signed h
  refine ⟨decide (d.rep < 0), e, _, hds e List.mem_cons_self, fun c hc => ?_, htext⟩
  cases List.mem_append.mp hc with
  | inl hc => exact isNumberChar_map (fun x hx => hds x (List.mem_cons_of_mem e hx)) c hc
  | inr hc =>
    cases List.mem_cons.mp hc with
    | inl hc => exact hc ▸ by decide
    | inr hc => exact isNumberChar_map hes c hc

theorem point_notMem_intText (i : Int64) : ch '.' ∉ intText i := by
  obtain ⟨d, ds, hlt, htext⟩ := intText_signed i
  rw [htext]
  intro hmem
  cases List.mem_append.mp hmem with
  | inl hmem =>
    split_ifs at hmem
    · exact absurd (List.mem_singleton.mp hmem) (by decide)
    · cases hmem
  | inr hmem =>
    rw [← List.map_cons] at hmem
    obtain ⟨e, he, hpoint⟩ := List.mem_map.mp hmem
    exact digitChar_ne (hlt e he) (by decide) hpoint

theorem point_mem_stringValue (d : MojDecimal) : ch '.' ∈ d.stringValue := by
  simp [MojDecimal.stringValue]

/-- The text of a number, whichever it is of. -/
def numberText : Int64 ⊕ MojDecimal → List MojByte
  | .inl i => intText i
  | .inr d => d.stringValue

theorem signed_numberText {n : Int64 ⊕ MojDecimal} (h : n ≠ .inr MojDecimal.least) : Signed (numberText n) := by
  cases n with
  | inl i => exact signed_intText i
  | inr d => exact signed_stringValue fun he => h (he ▸ rfl)

theorem numberText_inj {m n : Int64 ⊕ MojDecimal} (hm : m ≠ .inr MojDecimal.least) (hn : n ≠ .inr MojDecimal.least)
    (h : numberText m = numberText n) : m = n := by
  cases m with
  | inl i =>
    cases n with
    | inl j =>
      have hread := congrArg MojStrToInt64 h
      simp only [numberText, MojStrToInt64_intText] at hread
      exact congrArg Sum.inl (Prod.mk.inj hread).1
    | inr d => exact absurd ((show intText i = d.stringValue from h) ▸ point_mem_stringValue d) (point_notMem_intText i)
  | inr d =>
    cases n with
    | inl j => exact absurd ((show d.stringValue = intText j from h) ▸ point_mem_stringValue d) (point_notMem_intText j)
    | inr e =>
      have hread := congrArg MojDecimal.assign h
      rw [numberText, numberText, MojDecimal.assign_stringValue fun he => hm (he ▸ rfl),
        MojDecimal.assign_stringValue fun he => hn (he ▸ rfl)] at hread
      exact congrArg Sum.inr (Except.ok.inj hread)

theorem numberText_append_inj {m n : Int64 ⊕ MojDecimal} {r s : List MojByte} (hr : NotNumber r) (hs : NotNumber s)
    (h : numberText m ++ r = numberText n ++ s) : m = n ∧ r = s := by
  by_cases hm : m = .inr MojDecimal.least
  · by_cases hn : n = .inr MojDecimal.least
    · subst hm hn
      exact ⟨rfl, List.append_cancel_left h⟩
    · subst hm
      exact absurd h.symm ((signed_numberText hn).ne_least s r)
  · by_cases hn : n = .inr MojDecimal.least
    · subst hn
      exact absurd h ((signed_numberText hm).ne_least r s)
    · obtain ⟨htext, hrest⟩ := number_append_inj (signed_numberText hm).number (signed_numberText hn).number hr hs h
      exact ⟨numberText_inj hm hn htext, hrest⟩

/-! ## Values -/

/-- What the first character of a text says about the value. -/
def kindOfChar (c : MojByte) : Nat :=
  if c = ch 'n' then 0
  else if c = ch 't' ∨ c = ch 'f' then 1
  else if c = quote then 2
  else if c = ch '[' then 3
  else if c = ch '{' then 4
  else if c = ch ']' then 6
  else 5

def kindOf : MojObject → Nat
  | .undefined => 0
  | .null => 0
  | .bool _ => 1
  | .string _ => 2
  | .array _ => 3
  | .object _ => 4
  | .int _ => 5
  | .decimal _ => 5

theorem kindOfChar_signed {t : List MojByte} (h : Signed t) : ∃ c u, t = c :: u ∧ kindOfChar c = 5 := by
  obtain ⟨negative, d, cs, hd, -, rfl⟩ := h
  have hdigit : ∀ d < 10, kindOfChar (digitChar d) = 5 := by decide
  cases negative with
  | true => exact ⟨_, _, rfl, by decide⟩
  | false => exact ⟨_, _, rfl, hdigit d hd⟩

theorem jsonText_kind (o : MojObject) : ∃ c t, o.jsonText = c :: t ∧ kindOfChar c = kindOf o := by
  cases o with
  | int i => exact kindOfChar_signed (signed_intText i)
  | decimal d =>
    by_cases hd : d = MojDecimal.least
    · obtain ⟨rest, hrest⟩ := least_text
      exact ⟨_, _, hd ▸ hrest, rfl⟩
    · exact kindOfChar_signed (signed_stringValue hd)
  | bool b =>
    cases b with
    | true => exact ⟨_, _, rfl, by decide⟩
    | false => exact ⟨_, _, rfl, by decide⟩
  | _ => exact ⟨_, _, rfl, rfl⟩

theorem kindOf_eq {a b : MojObject} {r s : List MojByte} (h : a.jsonText ++ r = b.jsonText ++ s) :
    kindOf a = kindOf b := by
  obtain ⟨c, t, hc, hkind⟩ := jsonText_kind a
  obtain ⟨d, u, hd, hkind'⟩ := jsonText_kind b
  rw [hc, hd] at h
  rw [← hkind, ← hkind', (List.cons.inj h).1]

theorem notNumber_cons {c : MojByte} (h : isNumberChar c = false) (r : List MojByte) : NotNumber (c :: r) := by
  intro d hd
  exact Option.some.inj hd ▸ h

/-- What follows the text of `a` is told apart from it. -/
def TextDecodes (a : MojObject) : Prop :=
  ∀ (b : MojObject) (r s : List MojByte), NotNumber r → NotNumber s → a.jsonText ++ r = b.jsonText ++ s →
    a.written = b.written ∧ r = s

theorem jsonTextProps_notNumber (ps : List (MojString × MojObject)) (r : List MojByte) :
    NotNumber (jsonTextProps true ps ++ ch '}' :: r) := by
  cases ps with
  | nil => exact notNumber_cons (by decide) r
  | cons p ps => exact notNumber_cons (by decide) _

theorem jsonTextVec_notNumber (xs : List MojObject) (r : List MojByte) :
    NotNumber (jsonTextVec true xs ++ ch ']' :: r) := by
  cases xs with
  | nil => exact notNumber_cons (by decide) r
  | cons x xs => exact notNumber_cons (by decide) _

/-- By induction on the properties: a comma or a name is no closing brace. -/
theorem jsonTextProps_append_inj {ps qs : List (MojString × MojObject)} (hps : ∀ p ∈ ps, TextDecodes p.2) {comma : Bool}
    {r s : List MojByte} (h : jsonTextProps comma ps ++ ch '}' :: r = jsonTextProps comma qs ++ ch '}' :: s) :
    writtenProps ps = writtenProps qs ∧ r = s := by
  have hopen : ∀ (comma : Bool) (k : MojString) (u : List MojByte), ∃ c t, commaIf comma ++ (writeString k ++ u) = c :: t ∧
      c ≠ ch '}' := by
    intro comma k u
    cases comma with
    | true => exact ⟨_, _, rfl, by decide⟩
    | false => exact ⟨_, _, rfl, by decide⟩
  induction ps generalizing qs comma with
  | nil =>
    cases qs with
    | nil => exact ⟨rfl, (List.cons.inj h).2⟩
    | cons q qs =>
      obtain ⟨c, t, hc, hne⟩ := hopen comma q.1 (ch ':' :: (q.2.jsonText ++ jsonTextProps true qs))
      rw [jsonTextProps, jsonTextProps, hc] at h
      exact absurd (List.cons.inj h).1.symm hne
  | cons p ps ih =>
    cases qs with
    | nil =>
      obtain ⟨c, t, hc, hne⟩ := hopen comma p.1 (ch ':' :: (p.2.jsonText ++ jsonTextProps true ps))
      rw [jsonTextProps, jsonTextProps, hc] at h
      exact absurd (List.cons.inj h).1 hne
    | cons q qs =>
      obtain ⟨k, a⟩ := p
      obtain ⟨l, b⟩ := q
      simp only [jsonTextProps, List.append_assoc, List.cons_append, List.append_cancel_left_eq] at h
      obtain ⟨hname, htext⟩ := writeString_append_inj h
      obtain ⟨hval, hrest⟩ := hps (k, a) List.mem_cons_self b _ _ (jsonTextProps_notNumber ps r)
        (jsonTextProps_notNumber qs s) (List.cons.inj htext).2
      obtain ⟨hprops, hend⟩ := ih (fun p hp => hps p (List.mem_cons_of_mem _ hp)) hrest
      exact ⟨by rw [writtenProps, writtenProps, hname, hval, hprops], hend⟩

theorem jsonTextVec_append_inj {xs ys : List MojObject} (hxs : ∀ x ∈ xs, TextDecodes x) {comma : Bool}
    {r s : List MojByte} (h : jsonTextVec comma xs ++ ch ']' :: r = jsonTextVec comma ys ++ ch ']' :: s) :
    writtenVec xs = writtenVec ys ∧ r = s := by
  have hopen : ∀ (comma : Bool) (x : MojObject) (u : List MojByte), ∃ c t, commaIf comma ++ (x.jsonText ++ u) = c :: t ∧
      c ≠ ch ']' := by
    intro comma x u
    obtain ⟨c, t, ht, hkind⟩ := jsonText_kind x
    cases comma with
    | true => exact ⟨_, _, rfl, by decide⟩
    | false =>
      refine ⟨c, t ++ u, by rw [ht]; rfl, fun he => ?_⟩
      rw [he] at hkind
      have hlt : kindOf x < 6 := by cases x <;> simp [kindOf]
      have hsix : kindOfChar (ch ']') = 6 := rfl
      omega
  induction xs generalizing ys comma with
  | nil =>
    cases ys with
    | nil => exact ⟨rfl, (List.cons.inj h).2⟩
    | cons y ys =>
      obtain ⟨c, t, hc, hne⟩ := hopen comma y (jsonTextVec true ys)
      rw [jsonTextVec, jsonTextVec, hc] at h
      exact absurd (List.cons.inj h).1.symm hne
  | cons x xs ih =>
    cases ys with
    | nil =>
      obtain ⟨c, t, hc, hne⟩ := hopen comma x (jsonTextVec true xs)
      rw [jsonTextVec, jsonTextVec, hc] at h
      exact absurd (List.cons.inj h).1 hne
    | cons y ys =>
      simp only [jsonTextVec, List.append_assoc, List.append_cancel_left_eq] at h
      obtain ⟨hval, hrest⟩ := hxs x List.mem_cons_self y _ _ (jsonTextVec_notNumber xs r) (jsonTextVec_notNumber ys s) h
      obtain ⟨hvec, hend⟩ := ih (fun x hx => hxs x (List.mem_cons_of_mem _ hx)) hrest
      exact ⟨by rw [writtenVec, writtenVec, hval, hvec], hend⟩

/-- The text of `b` begins as that of `a`, so `b` is of the same kind. -/
theorem textDecodes (a : MojObject) : TextDecodes a := by
  induction a using inductionOn with
  | undefined =>
    intro b r s _ _ h
    have hkind := kindOf_eq h
    cases b with
    | undefined | null => exact ⟨rfl, List.append_cancel_left h⟩
    | _ => cases hkind
  | null =>
    intro b r s _ _ h
    have hkind := kindOf_eq h
    cases b with
    | undefined | null => exact ⟨rfl, List.append_cancel_left h⟩
    | _ => cases hkind
  | object ps ih =>
    intro b r s _ _ h
    have hkind := kindOf_eq h
    cases b with
    | object qs =>
      simp only [jsonText, List.cons_append, List.append_assoc, List.nil_append, List.cons.injEq, true_and] at h
      obtain ⟨hprops, hrest⟩ := jsonTextProps_append_inj ih h
      exact ⟨by rw [written, written, hprops], hrest⟩
    | _ => cases hkind
  | array xs ih =>
    intro b r s _ _ h
    have hkind := kindOf_eq h
    cases b with
    | array ys =>
      simp only [jsonText, List.cons_append, List.append_assoc, List.nil_append, List.cons.injEq, true_and] at h
      obtain ⟨hvec, hrest⟩ := jsonTextVec_append_inj ih h
      exact ⟨by rw [written, written, hvec], hrest⟩
    | _ => cases hkind
  | string x =>
    intro b r s _ _ h
    have hkind := kindOf_eq h
    cases b with
    | string y =>
      obtain ⟨hchars, hrest⟩ := writeString_append_inj h
      exact ⟨by rw [hchars], hrest⟩
    | _ => cases hkind
  | bool x =>
    intro b r s _ _ h
    have hkind := kindOf_eq h
    cases b with
    | bool y =>
      cases x with
      | true =>
        cases y with
        | true => exact ⟨rfl, List.append_cancel_left h⟩
        | false => exact absurd (List.cons.inj h).1 (by decide)
      | false =>
        cases y with
        | true => exact absurd (List.cons.inj h).1 (by decide)
        | false => exact ⟨rfl, List.append_cancel_left h⟩
    | _ => cases hkind
  | decimal d =>
    intro b r s hr hs h
    have hkind := kindOf_eq h
    cases b with
    | decimal e =>
      obtain ⟨he, hrest⟩ := numberText_append_inj (m := .inr d) (n := .inr e) hr hs h
      exact ⟨by rw [Sum.inr.inj he], hrest⟩
    | int j => cases (numberText_append_inj (m := .inr d) (n := .inl j) hr hs h).1
    | _ => cases hkind
  | int i =>
    intro b r s hr hs h
    have hkind := kindOf_eq h
    cases b with
    | decimal e => cases (numberText_append_inj (m := .inl i) (n := .inr e) hr hs h).1
    | int j =>
      obtain ⟨he, hrest⟩ := numberText_append_inj (m := .inl i) (n := .inl j) hr hs h
      exact ⟨by rw [Sum.inl.inj he], hrest⟩
    | _ => cases hkind

/-- The text of a value tells which value was written. -/
theorem jsonText_inj {a b : MojObject} (h : a.jsonText = b.jsonText) : a.written = b.written := by
  have hnil : NotNumber [] := fun c hc => nomatch hc
  exact (textDecodes a b [] [] hnil hnil (by rw [h])).1

/-- Of the texts of two objects, neither begins with the other: the closing brace is the end. -/
theorem jsonText_prefix_free {ps qs : List (MojString × MojObject)}
    (h : (MojObject.object ps).jsonText <+: (MojObject.object qs).jsonText) :
    (MojObject.object ps).jsonText = (MojObject.object qs).jsonText := by
  obtain ⟨r, hr⟩ := h
  simp only [jsonText, List.cons_append, List.append_assoc, List.nil_append, List.cons.injEq, true_and] at hr
  obtain ⟨-, hrest⟩ := jsonTextProps_append_inj (fun p _ => textDecodes p.2) hr
  subst hrest
  simp only [jsonText, List.cons.injEq, true_and]
  exact hr

end MojObject

end Db8
