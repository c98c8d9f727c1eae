import Db8.Core.MojJsonWriter
import Db8.Core.MojObjectSerialization
import Db8.Db.MojDbExtractor

/-!
# Db.MojDbObjectHeader

How an object is stored: a header with its kind, revision and deleted flag, and the rest of it.

* `extractFrom`, `write`  — the header taken out of an object and its bytes.
* `read`, `visit`         — the header read back, and its properties announced before those of the rest.
* `putObj`, `toObject`    — the bytes stored for an object, and the object read from them.
* `readsBack_iff`         — the object comes back, and whoever visits it is told each property once
  unless it is deleted.
-/

namespace Db8

open Lib MojObject MojObjectWriter MojDataReader MojObjectReader

open MojDb

namespace MojDbKind

def KindIdLenMax : Nat := 256

/-- What follows the last `VersionSeparator`. -/
def versionText (id : MojString) : List MojByte := (id.chars.reverse.takeWhile (· ≠ ch ':')).reverse

/-- Whether `MojDbKind::init` takes the id: a name, a colon and a version number. -/
def isKindId (id : MojString) : Bool :=
  decide (id.chars.length ≤ KindIdLenMax) && id.chars.any (· = ch ':') &&
    decide ((MojStrToInt64.ofString (versionText id)).2 = []) &&
    decide (0 ≤ (MojStrToInt64.ofString (versionText id)).1.toInt) &&
    decide ((MojStrToInt64.ofString (versionText id)).1.toInt ≤ 4294967295)

theorem versionText_getLast? {id : MojString} {c : MojByte} (h : id.chars.getLast? = some c) (hc : c ≠ ch ':') :
    (versionText id).getLast? = some c := by
  rw [← List.head?_reverse] at h
  obtain ⟨rest, hrest⟩ := List.head?_eq_some_iff.mp h
  rw [versionText, List.getLast?_reverse, hrest, List.takeWhile_cons_of_pos (by simpa using hc)]
  rfl

/-- The last character of a kind id is the colon or a digit of the version. -/
theorem isKindId_last {id : MojString} (h : isKindId id = true) {c : MojByte} (hlast : id.chars.getLast? = some c) :
    c = ch ':' ∨ (MojStrToInt64.hexDigit? c).isSome := by
  by_cases hc : c = ch ':'
  · exact .inl hc
  · simp only [isKindId, Bool.and_eq_true, decide_eq_true_eq] at h
    exact .inr (MojStrToInt64.ofString_last h.1.1.2 (versionText_getLast? hlast hc))

theorem isKindId_colon {id : MojString} (h : isKindId id = true) : ch ':' ∈ id.chars := by
  simp only [isKindId, Bool.and_eq_true, List.any_eq_true, decide_eq_true_eq] at h
  obtain ⟨c, hc, rfl⟩ := h.1.1.1.2
  exact hc

/-- Of all values only a string has the text of a kind id. -/
theorem eq_string_of_isKindId {o : MojObject} (h : isKindId o.stringValue = true) : o = .string o.stringValue := by
  have hnumeral : ¬IsNumeral (ch ':') := by decide
  have hcolon : ∀ {p : MojObject}, p.stringValue.chars = p.toJson → isKindId p.stringValue = true →
      ch ':' ∈ p.jsonText := by
    intro p hp hid
    have hmem := isKindId_colon hid
    rwa [hp, toJson_eq] at hmem
  have hlast : ∀ {p : MojObject} {c : MojByte}, p.stringValue.chars = p.toJson → isKindId p.stringValue = true →
      p.jsonText.getLast? = some c → c = ch ':' ∨ (MojStrToInt64.hexDigit? c).isSome := by
    intro p c hp hid hc
    refine isKindId_last hid ?_
    rw [hp, toJson_eq, hc]
  cases o with
  | string s => rfl
  | undefined =>
    have hmem := hcolon rfl h
    revert hmem
    decide
  | null =>
    have hmem := hcolon rfl h
    revert hmem
    decide
  | object ps =>
    have hend := hlast rfl h (c := ch '}') (by simp [jsonText, List.getLast?_cons])
    exact absurd hend (by decide)
  | array xs =>
    have hend := hlast rfl h (c := ch ']') (by simp [jsonText, List.getLast?_cons])
    exact absurd hend (by decide)
  | bool b =>
    have hmem := hcolon rfl h
    revert hmem
    cases b <;> decide
  | decimal d => exact absurd (MojDecimal.isNumeral_stringValue d _ (hcolon rfl h)) hnumeral
  | int i => exact absurd (isNumeral_intText i _ (hcolon rfl h)) hnumeral

end MojDbKind

/-! ## Kind tokens -/

/-- The tokens of the registered kinds, with `m_tokens`, which leads back to the kind: each kind's token
comes from a sequence of its own, and its id has passed `MojDbKind::init`. -/
structure MojDbKindTokens where
  kinds : List (MojString × Int64)
  tokens : List (Int64 × MojString)
  isKindId : ∀ k ∈ kinds, MojDbKind.isKindId k.1 = true
  inverse : ∀ k ∈ kinds, tokens.lookup k.2 = some k.1

namespace MojDbKindTokens

/-- `MojDbKindEngine::tokenFromId`. -/
def tokenFromId (engine : MojDbKindTokens) (id : MojString) : Except MojErr Int64 :=
  match engine.kinds.find? fun k => k.1 = id with
  | none => .error .dbKindNotRegistered
  | some k => .ok k.2

/-- `MojDbKindEngine::idFromToken`. -/
def idFromToken (engine : MojDbKindTokens) (tok : Int64) : Except MojErr MojString :=
  match engine.tokens.lookup tok with
  | none => .error .dbInvalidKindToken
  | some id => .ok id

theorem mem_of_tokenFromId {engine : MojDbKindTokens} {id : MojString} {tok : Int64}
    (h : engine.tokenFromId id = .ok tok) : (id, tok) ∈ engine.kinds := by
  unfold tokenFromId at h
  cases hfind : engine.kinds.find? fun k => k.1 = id with
  | none =>
    rw [hfind] at h
    cases h
  | some k =>
    rw [hfind] at h
    cases h
    have hid : k.1 = id := by simpa using List.find?_some hfind
    exact hid ▸ List.mem_of_find?_eq_some hfind

theorem idFromToken_eq {engine : MojDbKindTokens} {id : MojString} {tok : Int64}
    (h : engine.tokenFromId id = .ok tok) : engine.idFromToken tok = .ok id := by
  rw [idFromToken, engine.inverse _ (mem_of_tokenFromId h)]

end MojDbKindTokens

/-! ## The header -/

structure MojDbObjectHeader where
  id : MojObject
  kindId : MojString
  rev : Int64
  del : Bool

namespace MojDbObjectHeader

def Version : MojByte := 1
def MarkerHeaderEnd : MojByte := 16

/-- The header and what is left of the object. The deleted flag is copied, not taken out. -/
def extractFrom (id : MojObject) (obj : MojObject) : Except MojErr (MojDbObjectHeader × MojObject) := do
  let obj := obj.del IdKey
  let some kind := obj.get KindKey | throw .requiredPropNotFound
  let obj := obj.del KindKey
  let some rev := obj.get RevKey | throw .requiredPropNotFound
  let obj := obj.del RevKey
  let del := match obj.get DelKey with
    | some del => del.boolValue
    | none => false
  return (⟨id, kind.stringValue, rev.intValue, del⟩, obj)

def write (header : MojDbObjectHeader) (engine : MojDbKindTokens) : Except MojErr (List MojByte) := do
  let kindTok ← engine.tokenFromId header.kindId
  return Version :: (MojObjectWriter.write (.intValue kindTok) ++ MojObjectWriter.write (.intValue header.rev) ++
    (if header.del then MojObjectWriter.write (.boolValue true) else []) ++ [MarkerHeaderEnd])

/-- What a later version may have put into the header. -/
def skipUnknown : Nat → MojObjectReader → Except MojErr MojObjectReader
  | 0, r => if r.data.head? = some MarkerHeaderEnd then .ok r else .error .unexpectedEof
  | n + 1, r =>
    if r.data.head? = some MarkerHeaderEnd then .ok r
    else do
      let (_, r) ← r.next
      skipUnknown n r

/-- The header of the item with that id, and the reader behind it. One builder takes all its values. -/
def read (engine : MojDbKindTokens) (id : MojObject) (data : List MojByte) :
    Except MojErr (MojDbObjectHeader × MojObjectReader) := do
  let (version, data) ← readUInt8 data
  if version ≠ Version.val then throw .dbHeaderVersionMismatch
  let (evs, r) ← (ofBytes data none).next
  let kindId ← engine.idFromToken (MojObjectBuilder.build evs).intValue
  let (evs', r) ← r.next
  let rev := (MojObjectBuilder.build (evs ++ evs')).intValue
  let (del, r) ← if r.data.head? ≠ some MarkerHeaderEnd then do
      let (evs'', r) ← r.next
      pure ((MojObjectBuilder.build (evs ++ evs' ++ evs'')).boolValue, r)
    else pure (false, r)
  let r ← skipUnknown r.data.length r
  let (_, data) ← readUInt8 r.data
  return (⟨id, kindId, rev, del⟩, { r with data := data })

/-- The properties the header announces. -/
def props (header : MojDbObjectHeader) : List (MojString × MojObject) :=
  [(IdKey, header.id), (KindKey, .string header.kindId), (RevKey, .int header.rev)] ++
    if header.del then [(DelKey, .bool true)] else []

/-- The calls for an item: `beginObject` and the header's properties come from `MojDbObjectHeader::visit`, the
rest from the reader, which leaves its own `beginObject` out. `names` is the token set of the kind. -/
def visit (engine : MojDbKindTokens) (names : MojString → List MojString) (id : MojObject) (data : List MojByte) :
    Except MojErr (List Visit) := do
  let (header, r) ← read engine id data
  let (evs, _) ← MojObjectReader.read
    { r with skipBeginObj := true, tokenVec := some (names header.kindId) }
  return .beginObject :: (visitProps header.props ++ evs)

/-- `MojDbStorageItem::toObject`, whose result is what a `MojDbObjectItem` is made of. -/
def toObject (engine : MojDbKindTokens) (names : MojString → List MojString) (id : MojObject)
    (data : List MojByte) : Except MojErr MojObject := do
  let evs ← visit engine names id data
  return MojObjectBuilder.build evs

/-- The object with its revision and id. -/
def stamped (putId : MojObject) (rev : Int64) (obj : MojObject) : MojObject :=
  (obj.put RevKey (.int rev)).put IdKey putId

/-- The end of `MojDb::putObj`: the bytes that are stored, and the names of the kind's token set after it. -/
def putObj (engine : MojDbKindTokens) (putId : MojObject) (rev : Int64) (obj : MojObject) (tokenSet : MojTokenSet)
    (populate : Bool) : Except MojErr (List MojByte × Option (List MojString)) := do
  let (header, body) ← extractFrom putId (obj.put RevKey (.int rev))
  let buf ← header.write engine
  let writer := body.serialize (some tokenSet) populate
  return (buf ++ writer.buf, writer.names)

/-! ## Reading the header -/

theorem next_intValue (val : Int64) (rest : List MojByte) :
    (ofBytes (MojObjectWriter.write (.intValue val) ++ rest) none).next = .ok ([.intValue val], ofBytes rest none) :=
  next_spells (v := .intValue val) rfl rfl rest

theorem next_boolValue (val : Bool) (rest : List MojByte) :
    (ofBytes (MojObjectWriter.write (.boolValue val) ++ rest) none).next =
      .ok ([.boolValue val], ofBytes rest none) :=
  next_spells (v := .boolValue val) rfl rfl rest

/-- An engine that still knows the kind by its token reads the header that was written. -/
theorem read_write {engine engine' : MojDbKindTokens} {header : MojDbObjectHeader} {tok : Int64}
    (htok : engine.tokenFromId header.kindId = .ok tok) (htok' : engine'.tokenFromId header.kindId = .ok tok)
    {buf : List MojByte} (hbuf : header.write engine = .ok buf) (rest : List MojByte) :
    read engine' header.id (buf ++ rest) = .ok (header, ofBytes rest none) := by
  obtain ⟨id, kindId, rev, del⟩ := header
  have hid := MojDbKindTokens.idFromToken_eq htok'
  simp only [write, htok, ok_bind, pure_eq_ok] at hbuf
  subst hbuf
  have hfirst : ofBytes (MojObjectWriter.write (.intValue tok) ++ MojObjectWriter.write (.intValue rev) ++
      (if del then MojObjectWriter.write (.boolValue true) else []) ++ [MarkerHeaderEnd] ++ rest) none =
      ofBytes (MojObjectWriter.write (.intValue tok) ++ (MojObjectWriter.write (.intValue rev) ++
        ((if del then MojObjectWriter.write (.boolValue true) else []) ++ ([MarkerHeaderEnd] ++ rest)))) none := by
    simp only [List.append_assoc]
  have hversion : ¬((Version.val : Nat) ≠ Version.val) := fun h => h rfl
  simp only [read, List.cons_append, readUInt8, ok_bind, hversion, if_false, hfirst, next_intValue]
  have htokval : (MojObjectBuilder.build [.intValue tok]).intValue = tok := rfl
  have hrevval : (MojObjectBuilder.build [.intValue tok, .intValue rev]).intValue = rev := rfl
  rw [htokval, hid]
  cases del with
  | false => rfl
  | true =>
    simp only [if_true, ok_bind, ne_eq, next_boolValue]
    rfl

/-- The rest of the object is read without the mark of its beginning. -/
theorem read_skipBeginObj {names : Option (List MojString)} {ps : List (MojString × MojObject)}
    {bss : List (List MojByte)} (hs : List.Forall₂ (Spells names) (MojObject.object ps).visit bss) :
    MojObjectReader.read ⟨bss.flatten, [], true, names⟩ =
      .ok (visitProps ps ++ [.endObject], ⟨[], [], false, names⟩) := by
  rw [MojObject.visit] at hs
  cases hs with
  | @cons _ bs _ bss hbegin hrest =>
    cases hbegin
    have hwalks := @walks_visitProps ps (fun p _ => readsAsValue p.2) []
    have hproduces := produces_of_spells hrest hwalks []
    rw [List.append_nil] at hproduces
    refine read_of_produces ?_ rfl
    exact @Produces.step _ _ _ _ _ _ _ _ [] _ rfl trivial (hproduces.mono fun _ _ => trivial)

/-! ## The properties -/

/-- The object without what the header has taken out. -/
def body (ps : List (MojString × MojObject)) : List (MojString × MojObject) :=
  ((ps.filter fun p => p.1 ≠ IdKey).filter fun p => p.1 ≠ KindKey).filter fun p => p.1 ≠ RevKey

theorem getProp_body (key : MojString) (ps : List (MojString × MojObject)) :
    getProp key (body ps) = if key = IdKey ∨ key = KindKey ∨ key = RevKey then none else getProp key ps := by
  rw [body, getProp_filter, getProp_filter, getProp_filter]
  by_cases hrev : key = RevKey
  · simp [hrev]
  · by_cases hkind : key = KindKey
    · simp [hkind]
    · by_cases hid : key = IdKey
      · simp [hid]
      · simp [hrev, hkind, hid]

theorem extractFrom_eq {id obj : MojObject} {header : MojDbObjectHeader} {rest : MojObject}
    (h : extractFrom id obj = .ok (header, rest)) :
    ∃ kind rev, obj.get KindKey = some kind ∧ obj.get RevKey = some rev ∧
      header = ⟨id, kind.stringValue, rev.intValue, obj.isDeleted⟩ ∧ rest = .object (body obj.props) := by
  have hkind : (obj.del IdKey).get KindKey = obj.get KindKey := by rw [get_del, if_neg (by decide)]
  have hrev : ((obj.del IdKey).del KindKey).get RevKey = obj.get RevKey := by
    rw [get_del, if_neg (by decide), get_del, if_neg (by decide)]
  have hdel : (((obj.del IdKey).del KindKey).del RevKey).get DelKey = obj.get DelKey := by
    rw [get_del, if_neg (by decide), get_del, if_neg (by decide), get_del, if_neg (by decide)]
  have hflag : (match obj.get DelKey with
      | some del => del.boolValue
      | none => false) = obj.isDeleted := by
    rw [isDeleted]
    cases obj.get DelKey <;> rfl
  unfold extractFrom at h
  simp only [hkind, hrev, hdel, hflag] at h
  cases hk : obj.get KindKey with
  | none =>
    rw [hk] at h
    cases h
  | some kind =>
    cases hr : obj.get RevKey with
    | none =>
      rw [hk, hr] at h
      cases h
    | some rev =>
      rw [hk, hr] at h
      obtain ⟨rfl, rfl⟩ := Prod.mk.inj (pure_eq_ok.mp h)
      refine ⟨kind, rev, rfl, rfl, rfl, ?_⟩
      cases obj with
      | object ps => rfl
      | _ => cases hk

section Stored

variable {putId : MojObject} {rev : Int64} {obj : MojObject} {kindId : MojString}

/-- The three properties every header has. -/
def fixedProps (putId : MojObject) (rev : Int64) (kindId : MojString) : List (MojString × MojObject) :=
  [(IdKey, putId), (KindKey, .string kindId), (RevKey, .int rev)]

theorem getProp_fixedProps (key : MojString) :
    getProp key (fixedProps putId rev kindId) =
      if key = IdKey then some putId else if key = KindKey then some (.string kindId)
      else if key = RevKey then some (.int rev) else none := by
  simp only [fixedProps, getProp, eq_comm]

/-- The header's properties and the rest are together what was put. -/
theorem getProp_stored (hkind : (obj.put RevKey (.int rev)).get KindKey = some (.string kindId)) (key : MojString) :
    (getProp key (fixedProps putId rev kindId)).or (getProp key (body (obj.put RevKey (.int rev)).props)) =
      (stamped putId rev obj).get key := by
  rw [getProp_fixedProps, getProp_body, ← get_eq_getProp, stamped]
  by_cases hid : key = IdKey
  · simp [hid]
  · rw [get_put_of_ne hid]
    by_cases hk : key = KindKey
    · have hne : KindKey ≠ IdKey := by decide
      subst hk
      simp [hne, hkind]
    · by_cases hr : key = RevKey
      · have hne : RevKey ≠ IdKey := by decide
        have hne' : RevKey ≠ KindKey := by decide
        subst hr
        simp [hne, hne']
      · simp [hid, hk, hr]

theorem isOrdered_stamped (hord : obj.isOrdered = true) (hid : putId.isOrdered = true) :
    (stamped putId rev obj).isOrdered = true :=
  isOrdered_put (isOrdered_put hord rfl) hid

theorem nodup_stored (hord : obj.isOrdered = true) :
    ((fixedProps putId rev kindId ++ body (obj.put RevKey (.int rev)).props).map Prod.fst).Nodup := by
  have hkeys := nodup_keys (isOrderedProps_props (@isOrdered_put obj (.int rev) RevKey hord rfl))
  have hsub : (body (obj.put RevKey (.int rev)).props).Sublist (obj.put RevKey (.int rev)).props :=
    (List.filter_sublist.trans List.filter_sublist).trans List.filter_sublist
  rw [List.map_append, List.nodup_append]
  have hfixed : [IdKey, KindKey, RevKey].Nodup := by decide
  refine ⟨hfixed, hkeys.sublist (hsub.map _), ?_⟩
  intro key hkey key' hkey' he
  subst he
  obtain ⟨p, hp, rfl⟩ := List.mem_map.mp hkey'
  simp only [body, List.mem_filter, decide_eq_true_eq, ne_eq] at hp
  simp only [fixedProps, List.map_cons, List.map_nil, List.mem_cons, List.not_mem_nil, or_false] at hkey
  obtain hkey | hkey | hkey := hkey
  · exact hp.1.1.2 hkey
  · exact hp.1.2 hkey
  · exact hp.2 hkey

theorem perm_stored (hord : obj.isOrdered = true) (hid : putId.isOrdered = true)
    (hkind : (obj.put RevKey (.int rev)).get KindKey = some (.string kindId)) :
    (fixedProps putId rev kindId ++ body (obj.put RevKey (.int rev)).props).Perm (stamped putId rev obj).props := by
  have hnodup := @nodup_stored putId rev obj kindId hord
  have hstamped := @isOrdered_stamped putId rev obj hord hid
  have hkeys := nodup_keys (isOrderedProps_props hstamped)
  rw [List.perm_ext_iff_of_nodup hnodup.of_map hkeys.of_map]
  intro p
  rw [← getProp_eq_some hnodup, getProp_append, getProp_stored hkind, get_eq_some hstamped]

end Stored

/-- The calls announce each property of the object once, in some order. -/
def Announces (evs : List Visit) (obj : MojObject) : Prop :=
  ∃ ps : List (MojString × MojObject), ps.Perm obj.props ∧ evs = .beginObject :: (visitProps ps ++ [.endObject])

theorem length_visitProps {ps qs : List (MojString × MojObject)} (h : ps.Perm qs) :
    (visitProps ps).length = (visitProps qs).length := by
  rw [visitProps_eq_flatMap, visitProps_eq_flatMap]
  exact (h.flatMap_right _).length_eq

/-- The flag of a deleted object is announced by the header and once more with the rest. -/
theorem announces_iff {obj : MojObject} {fixed rest : List (MojString × MojObject)}
    (hperm : (fixed ++ rest).Perm obj.props) (del : Bool) :
    Announces (.beginObject :: (visitProps (fixed ++ (if del then [(DelKey, .bool true)] else []) ++ rest) ++
      [.endObject])) obj ↔ del = false := by
  cases del with
  | false =>
    refine ⟨fun _ => rfl, fun _ => ⟨fixed ++ rest, hperm, ?_⟩⟩
    rw [if_neg Bool.false_ne_true, List.append_nil]
  | true =>
    refine ⟨fun h => ?_, fun h => absurd h (by decide)⟩
    obtain ⟨ps, hps, hevs⟩ := h
    have hlen := congrArg List.length hevs
    have hall := length_visitProps (hps.trans hperm.symm)
    have hsplit : ∀ a b : List (MojString × MojObject),
        (visitProps (a ++ b)).length = (visitProps a).length + (visitProps b).length := by
      intro a b
      rw [visitProps_eq_flatMap, visitProps_eq_flatMap, visitProps_eq_flatMap, List.flatMap_append,
        List.length_append]
    simp only [if_true, List.length_cons, List.length_append, hsplit, hall] at hlen
    simp only [visitProps, MojObject.visit, List.length_cons, List.length_append, List.length_nil] at hlen
    omega

theorem writtenProps_of_isDefined {ps : List (MojString × MojObject)} (h : ∀ p ∈ ps, p.2.isDefined = true) :
    writtenProps ps = ps := by
  have hobj := written_of_isDefined (o := .object ps) (isDefinedProps_iff.mpr h)
  exact MojObject.object.inj hobj

/-- Whatever is put twice, the value of the rest stands. -/
theorem getProp_putAll_stored {fixed rest : List (MojString × MojObject)} {del : Bool}
    (hnodup : ((fixed ++ rest).map Prod.fst).Nodup) (hdel : del = true → getProp DelKey rest ≠ none)
    (hfixed : getProp DelKey fixed = none) (key : MojString) :
    getProp key (putAll [] (fixed ++ (if del then [(DelKey, .bool true)] else []) ++ rest)) =
      (getProp key fixed).or (getProp key rest) := by
  have hrest : (rest.map Prod.fst).Nodup := by
    rw [List.map_append] at hnodup
    exact (List.nodup_append.mp hnodup).2.1
  have hheader : ((fixed ++ (if del then [(DelKey, (.bool true : MojObject))] else [])).map Prod.fst).Nodup := by
    cases del with
    | false =>
      rw [List.map_append, List.nodup_append] at hnodup
      simpa using hnodup.1
    | true =>
      rw [List.map_append, List.nodup_append] at hnodup
      rw [if_pos rfl, List.map_append, List.nodup_append]
      refine ⟨hnodup.1, List.nodup_singleton _, ?_⟩
      intro k hk k' hk' he
      obtain rfl : k' = DelKey := List.mem_singleton.mp hk'
      obtain ⟨p, hp, rfl⟩ := List.mem_map.mp hk
      have hget := (getProp_eq_some hnodup.1).mpr (he ▸ hp : (DelKey, p.2) ∈ fixed)
      rw [hfixed] at hget
      cases hget
  have hsplit : putAll [] (fixed ++ (if del then [(DelKey, .bool true)] else []) ++ rest) =
      putAll (putAll [] (fixed ++ (if del then [(DelKey, .bool true)] else []))) rest := List.foldl_append
  rw [hsplit, getProp_putAll hrest, getProp_putAll hheader, getProp_append]
  have hnil : getProp key [] = none := rfl
  rw [hnil, Option.or_none]
  cases hr : getProp key rest with
  | none =>
    have hflag : getProp key (if del then [(DelKey, (.bool true : MojObject))] else []) = none := by
      cases del with
      | false => rfl
      | true =>
        have hne : DelKey ≠ key := by
          intro he
          exact hdel rfl (he ▸ hr)
        simp [getProp, hne]
    rw [hflag, Option.none_or]
  | some val =>
    have hnone : getProp key fixed = none := by
      rw [Option.eq_none_iff_forall_ne_some]
      intro val' hval'
      rw [List.map_append, List.nodup_append] at hnodup
      exact hnodup.2.2 key (List.mem_map.mpr ⟨_, (getProp_eq_some hnodup.1).mp hval', rfl⟩) key
        (List.mem_map.mpr ⟨_, (getProp_eq_some hrest).mp hr, rfl⟩) rfl
    rw [hnone, Option.some_or, Option.none_or]

section ReadsBack

variable {engine engine' : MojDbKindTokens} {putId : MojObject} {rev : Int64} {obj : MojObject}
  {tokenSet : MojTokenSet} {populate : Bool} {data : List MojByte} {written : Option (List MojString)}
  {names : MojString → List MojString}

/-- What an accepted put has stored, and what a visit of it announces. -/
theorem visit_putObj (hput : putObj engine putId rev obj tokenSet populate = .ok (data, written))
    (hengine : ∀ id tok, obj.get KindKey = some (.string id) → engine.tokenFromId id = .ok tok →
      engine'.tokenFromId id = .ok tok)
    (hnames : ∀ id, obj.get KindKey = some (.string id) → Grows written (some (names id))) :
    ∃ kindId, (obj.put RevKey (.int rev)).get KindKey = some (.string kindId) ∧
      visit engine' names putId data = .ok (.beginObject :: (visitProps (fixedProps putId rev kindId ++
        (if (obj.put RevKey (.int rev)).isDeleted then [(DelKey, .bool true)] else []) ++
        body (obj.put RevKey (.int rev)).props) ++ [.endObject])) := by
  unfold putObj at hput
  obtain ⟨⟨header, rest⟩, hextract, hput⟩ := bind_eq_ok.mp hput
  obtain ⟨buf, hbuf, hput⟩ := bind_eq_ok.mp hput
  obtain ⟨rfl, rfl⟩ := Prod.mk.inj (pure_eq_ok.mp hput)
  obtain ⟨kind, rev', hkind, hrev, rfl, rfl⟩ := extractFrom_eq hextract
  rw [get_put_self] at hrev
  obtain rfl := Option.some.inj hrev
  obtain ⟨tok, htok, -⟩ := bind_eq_ok.mp hbuf
  have hisKind := engine.isKindId _ (MojDbKindTokens.mem_of_tokenFromId htok)
  have hstring := MojDbKind.eq_string_of_isKindId hisKind
  rw [hstring] at hkind
  have hobj : obj.get KindKey = some (.string kind.stringValue) := by
    rw [← hkind, get_put_of_ne (by decide)]
  refine ⟨kind.stringValue, hkind, ?_⟩
  obtain ⟨bss, hflat, hspells⟩ := (MojObject.object (body (obj.put RevKey (.int rev)).props)).serialize_spells
    (some tokenSet) populate
  have hread := read_skipBeginObj (hspells.imp fun _ _ h => h.mono (hnames kind.stringValue hobj))
  have hheader := read_write htok (hengine _ _ hobj htok) hbuf bss.flatten
  unfold visit
  rw [hflat]
  simp only [ofBytes] at hheader
  rw [hheader, ok_bind]
  simp only
  rw [hread, ok_bind]
  simp only [props, fixedProps, MojObject.intValue, visitProps_eq_flatMap, List.flatMap_append, List.append_assoc]
  rfl

/-- **What is read of a stored object.** An object that a put has accepted is read back equal to the object with
its revision and id, by an engine that still knows its kind's token, with the names the kind's tokens had after
the put or have grown to since. Whoever visits the item directly is told each of its properties once if and only
if the object is not deleted. -/
theorem readsBack_iff (hord : obj.isOrdered = true) (hdef : obj.isDefined = true) (hid : putId.isOrdered = true)
    (hiddef : putId.isDefined = true)
    (hput : putObj engine putId rev obj tokenSet populate = .ok (data, written))
    (hengine : ∀ id tok, obj.get KindKey = some (.string id) → engine.tokenFromId id = .ok tok →
      engine'.tokenFromId id = .ok tok)
    (hnames : ∀ id, obj.get KindKey = some (.string id) → Grows written (some (names id))) :
    toObject engine' names putId data = .ok (stamped putId rev obj) ∧
    ((∃ evs, visit engine' names putId data = .ok evs ∧ Announces evs (stamped putId rev obj)) ↔
      obj.isDeleted = false) := by
  obtain ⟨kindId, hkind, hvisit⟩ := visit_putObj hput hengine hnames
  have hdeleted : (obj.put RevKey (.int rev)).isDeleted = obj.isDeleted := by
    rw [isDeleted, isDeleted, get_put_of_ne (by decide)]
  rw [hdeleted] at hvisit
  have hord' : (obj.put RevKey (.int rev)).isOrdered = true := isOrdered_put hord rfl
  have hstamped : (stamped putId rev obj).isOrdered = true := isOrdered_stamped hord hid
  constructor
  · have hall : ∀ p ∈ fixedProps putId rev kindId ++ (if obj.isDeleted then [(DelKey, .bool true)] else []) ++
        body (obj.put RevKey (.int rev)).props, p.2.isDefined = true ∧ p.2.isOrdered = true := by
      intro p hp
      rw [List.mem_append, List.mem_append] at hp
      obtain (hp | hp) | hp := hp
      · simp only [fixedProps, List.mem_cons, List.not_mem_nil, or_false] at hp
        obtain rfl | rfl | rfl := hp
        · exact ⟨hiddef, hid⟩
        · exact ⟨rfl, rfl⟩
        · exact ⟨rfl, rfl⟩
      · split_ifs at hp
        · exact List.mem_singleton.mp hp ▸ ⟨rfl, rfl⟩
        · cases hp
      · have hmem : p ∈ (obj.put RevKey (.int rev)).props :=
          List.mem_of_mem_filter (List.mem_of_mem_filter (List.mem_of_mem_filter hp))
        cases mem_props_put hmem with
        | inl he => exact he ▸ ⟨rfl, rfl⟩
        | inr hp => exact ⟨isDefined_of_mem_props hdef hp, isOrdered_of_mem_props hord hp⟩
    have hdel : obj.isDeleted = true → getProp DelKey (body (obj.put RevKey (.int rev)).props) ≠ none := by
      intro hflag hnone
      rw [getProp_body, if_neg (by decide), ← get_eq_getProp, get_put_of_ne (by decide)] at hnone
      rw [isDeleted, hnone] at hflag
      cases hflag
    have hprops : putAll [] (fixedProps putId rev kindId ++ (if obj.isDeleted then [(DelKey, .bool true)] else []) ++
        body (obj.put RevKey (.int rev)).props) = (stamped putId rev obj).props := by
      refine eq_of_getProp (@isOrderedProps_putAll [] _ rfl fun p hp => (hall p hp).2)
        (isOrderedProps_props hstamped) fun key => ?_
      rw [getProp_putAll_stored (nodup_stored hord) hdel (by rw [getProp_fixedProps]; rfl), getProp_stored hkind,
        get_eq_getProp]
    rw [toObject, hvisit, ok_bind, MojObjectBuilder.build_visitProps fun p hp => (hall p hp).2,
      writtenProps_of_isDefined fun p hp => (hall p hp).1, hprops, stamped, object_props_put]
    rfl
  · have hiff := announces_iff (@perm_stored putId _ _ _ hord hid hkind) obj.isDeleted
    rw [← hiff]
    constructor
    · intro h
      obtain ⟨evs, hevs, hann⟩ := h
      rw [hvisit] at hevs
      exact Except.ok.inj hevs ▸ hann
    · intro h
      exact ⟨_, hvisit, h⟩

end ReadsBack

/-- `"C:1"`. -/
def kindC : MojString := ⟨[67, 58, 49], by decide⟩

def engineC : MojDbKindTokens := ⟨[(kindC, 300)], [(300, kindC)], by decide, by decide⟩

/-- `{"_id": "c", "_kind": "C:1", "a": "b"}`, with the flag in front when it is deleted. -/
def objectC (deleted : Bool) : MojObject :=
  .object ((if deleted then [(DelKey, .bool true)] else []) ++
    [(IdKey, .string nameC), (KindKey, .string kindC), (nameA, .string nameB)])

/-- The names of the kind, which has got another one since. -/
def namesC (deleted : Bool) : MojString → List MojString :=
  fun _ => (if deleted then [DelKey] else []) ++ [nameA, nameB]

/-- The bytes stored for the object: the header, then the rest with its tokens. -/
def dataC (deleted : Bool) : List MojByte :=
  if deleted then [1, 12, 1, 44, 11, 7, 6, 16, 2, 32, 6, 33, 4, 98, 0, 0]
  else [1, 12, 1, 44, 11, 7, 16, 2, 32, 4, 98, 0, 0]

theorem putObj_objectC (deleted : Bool) :
    putObj engineC (.string nameC) 7 (objectC deleted) (.init .empty) true =
      .ok (dataC deleted, some ((if deleted then [DelKey] else []) ++ [nameA])) := by
  cases deleted <;> decide +kernel

theorem namesC_grows (deleted : Bool) (id : MojString) :
    Grows (some ((if deleted then [DelKey] else []) ++ [nameA])) (some (namesC deleted id)) :=
  .some ⟨[nameB], by cases deleted <;> rfl⟩

theorem readsBack_objectC :
    toObject engineC (namesC false) (.string nameC) (dataC false) =
      .ok (stamped (.string nameC) 7 (objectC false)) :=
  (@readsBack_iff _ engineC _ _ _ _ _ _ _ _ (by decide) (by decide) rfl rfl (putObj_objectC false) (fun _ _ _ h => h)
    (fun id _ => namesC_grows false id)).1

/-- The flag of a deleted object is announced twice. -/
theorem readsBack_deleted :
    putObj engineC (.string nameC) 7 (objectC true) (.init .empty) true =
      .ok (dataC true, some [DelKey, nameA]) ∧
    visit engineC (namesC true) (.string nameC) (dataC true) =
      .ok [.beginObject, .propName IdKey, .stringValue nameC, .propName KindKey, .stringValue kindC,
        .propName RevKey, .intValue 7, .propName DelKey, .boolValue true, .propName DelKey, .boolValue true,
        .propName nameA, .stringValue nameB, .endObject] ∧
    ¬∃ evs, visit engineC (namesC true) (.string nameC) (dataC true) = .ok evs ∧
      Announces evs (stamped (.string nameC) 7 (objectC true)) := by
  obtain ⟨kindId, hkind, hvisit⟩ := @visit_putObj _ engineC _ _ _ _ _ _ _ _ (putObj_objectC true) (fun _ _ _ h => h)
    (fun id _ => namesC_grows true id)
  have hkindId : kindId = kindC := by
    have hget : ((objectC true).put RevKey (.int 7)).get KindKey = some (.string kindC) := by decide
    rw [hget] at hkind
    exact (MojObject.string.inj (Option.some.inj hkind)).symm
  subst hkindId
  refine ⟨putObj_objectC true, hvisit, ?_⟩
  · intro h
    obtain ⟨evs, hevs, hann⟩ := h
    rw [hvisit] at hevs
    have hperm := @perm_stored (.string nameC) 7 (objectC true) _ (by decide) rfl hkind
    have hflag := (announces_iff hperm true).mp (Except.ok.inj hevs ▸ hann)
    cases hflag

end MojDbObjectHeader

end Db8
