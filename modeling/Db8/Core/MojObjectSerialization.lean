import Db8.Core.MojObjectBuilder
import Db8.Core.MojObjectReader

/-!
# Core.MojObjectSerialization

The reader inverts the writer, with any token set.

* `serialize`, `readObject`, `fromBytes` — writing a value, reading one value off some bytes, and
  reading bytes that hold one value.
* `serialize_append_inj`  — where the bytes of a value end does not depend on what they are read with.
* `serialize_reads_back`  — reading gives the value back and stops behind its last byte.
* `readObject_writeStringChars` — a string with a zero byte is read up to it only.
-/

namespace Db8

open Lib MojObjectWriter MojObjectReader

namespace MojObject

/-- The writer after it has visited `o`, from an empty buffer. -/
def serialize (o : MojObject) (tokenSet : Option MojTokenSet) (populate : Bool) : MojObjectWriter :=
  MojObjectWriter.visit ⟨[], tokenSet, populate⟩ o.visit

/-- `nextObject` into a builder: the value and the bytes left. -/
def readObject (names : Option (List MojString)) (data : List MojByte) :
    Except MojErr (MojObject × List MojByte) := do
  let (vs, r) ← (ofBytes data names).nextObject
  return (MojObjectBuilder.build vs, r.data)

/-- `MojObject::fromBytes`. -/
def fromBytes (names : Option (List MojString)) (data : List MojByte) : Except MojErr MojObject := do
  let (vs, _) ← (ofBytes data names).read
  return MojObjectBuilder.build vs

theorem serialize_spells (o : MojObject) (tokenSet : Option MojTokenSet) (populate : Bool) :
    ∃ bss, (o.serialize tokenSet populate).buf = bss.flatten ∧
      List.Forall₂ (Spells (o.serialize tokenSet populate).names) o.visit bss :=
  MojObjectWriter.visit_spells ⟨[], tokenSet, populate⟩ o.visit

/-! ## Where the bytes end -/

/-- An event without the string it carries. -/
def skeleton : Visit → Visit
  | .propName _ => .propName MojString.empty
  | .stringValue _ => .stringValue MojString.empty
  | v => v

theorem accept_skeleton (stack : List MojObjectReaderState) (v : Visit) :
    accept stack (skeleton v) = accept stack v := by
  cases v <;> rfl

theorem walks_of_skeleton {n : Nat} {stack stack' : List MojObjectReaderState} {vs ws : List Visit}
    (h : Walks n stack vs stack') (hw : ws.map skeleton = vs.map skeleton) :
    Walks n stack ws stack' := by
  induction h generalizing ws with
  | @last stack stack' v h =>
    obtain ⟨w, rfl, hv⟩ := List.map_eq_singleton_iff.mp hw
    refine .last ?_
    rw [← accept_skeleton, hv, accept_skeleton, h]
  | @step stack t stack' v vs h hn _ ih =>
    obtain ⟨w, ws', rfl, hv, hws⟩ := List.map_eq_cons_iff.mp hw
    refine .step ?_ hn (ih hws)
    rw [← accept_skeleton, hv, accept_skeleton, h]

/-- Names for all tokens there can be. -/
def anyNames : Option (List MojString) := some (List.replicate 223 MojString.empty)

theorem spells_anyNames {names : Option (List MojString)} {v : Visit} {bs : List MojByte}
    (h : Spells names v bs) : ∃ w, skeleton w = skeleton v ∧ Spells anyNames w bs := by
  have htoken : ∀ i, i < 223 → SpellsString anyNames MojString.empty [MojTokenSet.tokenMarker i] := by
    intro i hi
    exact .inr ⟨_, i, rfl, hi, List.getElem?_replicate_of_lt hi, rfl⟩
  cases v with
  | propName name =>
    cases h with
    | inl h => exact ⟨.propName name, rfl, .inl h⟩
    | inr h =>
      obtain ⟨vec, i, -, hi, -, rfl⟩ := h
      exact ⟨.propName MojString.empty, rfl, htoken i hi⟩
  | stringValue val =>
    cases h with
    | inl h => exact ⟨.stringValue val, rfl, .inl h⟩
    | inr h =>
      obtain ⟨vec, i, -, hi, -, rfl⟩ := h
      exact ⟨.stringValue MojString.empty, rfl, htoken i hi⟩
  | _ => exact ⟨_, rfl, h⟩

theorem forall₂_spells_anyNames {names : Option (List MojString)} {vs : List Visit}
    {bss : List (List MojByte)} (h : List.Forall₂ (Spells names) vs bss) :
    ∃ ws, ws.map skeleton = vs.map skeleton ∧ List.Forall₂ (Spells anyNames) ws bss := by
  induction h with
  | nil => exact ⟨[], rfl, .nil⟩
  | cons hv _ ih =>
    obtain ⟨w, hw, hspells⟩ := spells_anyNames hv
    obtain ⟨ws, hws, hall⟩ := ih
    exact ⟨w :: ws, by rw [List.map_cons, List.map_cons, hw, hws], .cons hspells hall⟩

/-- A reader that has a name for every token finds the end of the bytes of any value. -/
theorem serialize_nextObject (o : MojObject) (tokenSet : Option MojTokenSet) (populate : Bool)
    (rest : List MojByte) :
    ∃ vs, (ofBytes ((o.serialize tokenSet populate).buf ++ rest) anyNames).nextObject =
      .ok (vs, ofBytes rest anyNames) := by
  obtain ⟨bss, hbuf, hspells⟩ := o.serialize_spells tokenSet populate
  obtain ⟨vs, hvs, hall⟩ := forall₂_spells_anyNames hspells
  rw [hbuf]
  exact ⟨vs, nextObject_of_walks hall (walks_of_skeleton (readsAsValue o [] [] rfl) hvs) rest⟩

/-- Of two values' bytes neither begins with the other, whatever tokens they were written with. -/
theorem serialize_append_inj {a b : MojObject} {tokenSet tokenSet' : Option MojTokenSet}
    {populate populate' : Bool} {s t : List MojByte}
    (h : (a.serialize tokenSet populate).buf ++ s = (b.serialize tokenSet' populate').buf ++ t) :
    (a.serialize tokenSet populate).buf = (b.serialize tokenSet' populate').buf ∧ s = t := by
  obtain ⟨vs, hvs⟩ := a.serialize_nextObject tokenSet populate s
  obtain ⟨ws, hws⟩ := b.serialize_nextObject tokenSet' populate' t
  rw [h, hws] at hvs
  cases hvs
  exact ⟨List.append_cancel_right h, rfl⟩

theorem serialize_none (o : MojObject) (populate : Bool) : o.serialize none populate = ⟨o.toBytes, none, populate⟩ := by
  have h : ∀ (vs : List Visit) (buf : List MojByte),
      (MojObjectWriter.visit ⟨buf, none, populate⟩ vs) = ⟨buf ++ vs.flatMap write, none, populate⟩ := by
    intro vs
    induction vs with
    | nil =>
      intro buf
      simp [MojObjectWriter.visit]
    | cons v vs ih =>
      intro buf
      have hcall : MojObjectWriter.call ⟨buf, none, populate⟩ v = ⟨buf ++ write v, none, populate⟩ := by
        cases v <;> rfl
      change MojObjectWriter.visit (MojObjectWriter.call ⟨buf, none, populate⟩ v) vs = _
      rw [hcall, ih, List.flatMap_cons, List.append_assoc]
  rw [serialize, h]
  rfl

theorem serialize_none_buf (o : MojObject) (populate : Bool) :
    (o.serialize none populate).buf = o.toBytes := by
  rw [serialize_none]

theorem toBytes_ne_nil (o : MojObject) : o.toBytes ≠ [] := by
  obtain ⟨x, u, hx, -⟩ := toBytes_first o
  simp [hx]

/-- Bytes of values in a row, as in an index key, are those of no other values. -/
theorem flatMap_toBytes_inj {os os' : List MojObject} (hos : ∀ o ∈ os, o.isDefined = true)
    (hos' : ∀ o ∈ os', o.isDefined = true) (h : os.flatMap toBytes = os'.flatMap toBytes) :
    os = os' := by
  induction os generalizing os' with
  | nil =>
    cases os' with
    | nil => rfl
    | cons o' os' => simp [toBytes_ne_nil] at h
  | cons o os ih =>
    cases os' with
    | nil => simp [toBytes_ne_nil] at h
    | cons o' os' =>
      rw [List.flatMap_cons, List.flatMap_cons] at h
      obtain ⟨ho, hrest⟩ := toBytes_append_inj (hos o List.mem_cons_self) (hos' o' List.mem_cons_self) h
      rw [ho, ih (fun a ha => hos a (List.mem_cons_of_mem _ ha))
        (fun a ha => hos' a (List.mem_cons_of_mem _ ha)) hrest]

/-! ## Reading back -/

theorem readObject_serialize {o : MojObject} (hdef : o.isDefined = true) (hord : o.isOrdered = true)
    {tokenSet : Option MojTokenSet} {populate : Bool} {names : Option (List MojString)}
    (hnames : Grows (o.serialize tokenSet populate).names names) (rest : List MojByte) :
    readObject names ((o.serialize tokenSet populate).buf ++ rest) = .ok (o, rest) := by
  obtain ⟨bss, hbuf, hspells⟩ := o.serialize_spells tokenSet populate
  have hread := nextObject_spells (hspells.imp fun _ _ h => h.mono hnames) rest
  rw [readObject, hbuf, hread, ok_bind]
  change Except.ok (MojObjectBuilder.build o.visit, rest) = _
  rw [MojObjectBuilder.build_visit hord, written_of_isDefined hdef]

/-- Any spelling of a value's events is read back by a reader that has the names. -/
theorem fromBytes_spells {o : MojObject} (hdef : o.isDefined = true) (hord : o.isOrdered = true)
    {names : Option (List MojString)} {bss : List (List MojByte)}
    (h : List.Forall₂ (Spells names) o.visit bss) : fromBytes names bss.flatten = .ok o := by
  rw [fromBytes, read_spells h, ok_bind]
  change Except.ok (MojObjectBuilder.build o.visit) = _
  rw [MojObjectBuilder.build_visit hord, written_of_isDefined hdef]

theorem fromBytes_serialize {o : MojObject} (hdef : o.isDefined = true) (hord : o.isOrdered = true)
    {tokenSet : Option MojTokenSet} {populate : Bool} {names : Option (List MojString)}
    (hnames : Grows (o.serialize tokenSet populate).names names) :
    fromBytes names (o.serialize tokenSet populate).buf = .ok o := by
  obtain ⟨bss, hbuf, hspells⟩ := o.serialize_spells tokenSet populate
  rw [hbuf]
  exact fromBytes_spells hdef hord (hspells.imp fun _ _ h => h.mono hnames)

/-- **The reader inverts the writer.** A value whose property maps are in key order is read back,
to its last byte, from what the writer made of it with any token set, growing or not, by a reader
that knows the names of that set (or of one that has grown from it). The bytes of no two values
begin one with the other, and values written in a row without tokens are told apart. -/
theorem serialize_reads_back (o : MojObject) (hdef : o.isDefined = true) (hord : o.isOrdered = true)
    (tokenSet : Option MojTokenSet) (populate : Bool) :
    (∀ names, Grows (o.serialize tokenSet populate).names names →
      fromBytes names (o.serialize tokenSet populate).buf = .ok o ∧
      ∀ rest, readObject names ((o.serialize tokenSet populate).buf ++ rest) = .ok (o, rest)) ∧
    (∀ (o' : MojObject) (tokenSet' : Option MojTokenSet) (populate' : Bool) (s t : List MojByte),
      (o.serialize tokenSet populate).buf ++ s = (o'.serialize tokenSet' populate').buf ++ t →
      (o.serialize tokenSet populate).buf = (o'.serialize tokenSet' populate').buf ∧ s = t) ∧
    (∀ os os' : List MojObject, (∀ a ∈ os, a.isDefined = true) → (∀ a ∈ os', a.isDefined = true) →
      (o :: os).flatMap (fun a => (a.serialize none populate).buf) =
        os'.flatMap (fun a => (a.serialize none populate).buf) → o :: os = os') := by
  refine ⟨?_, ?_, ?_⟩
  · intro names hnames
    exact ⟨fromBytes_serialize hdef hord hnames, readObject_serialize hdef hord hnames⟩
  · intro o' tokenSet' populate' s t h
    exact serialize_append_inj h
  · intro os os' hos hos' h
    simp only [serialize_none_buf] at h
    exact flatMap_toBytes_inj (List.forall_mem_cons.mpr ⟨hdef, hos⟩) hos' h

theorem zero_notMem_a : (0 : MojByte) ∉ [97] := by decide

def nameA : MojString := ⟨[97], zero_notMem_a⟩
def nameB : MojString := ⟨[98], by decide⟩
def nameC : MojString := ⟨[99], by decide⟩

/-- `{"a": ["b", 300], "b": {"c": -5}}`. -/
def nestedObject : MojObject :=
  .object [(nameA, .array [.string nameB, .int 300]), (nameB, .object [(nameC, .int (-5))])]

/-- A set that has a token for `"b"`. -/
def tokensB : MojTokenSet := .init (MojSharedTokenSet.empty.addPropImpl nameB).2.2

example : (nestedObject.serialize (some tokensB) true).buf =
    [2, 33, 3, 32, 12, 1, 44, 0, 32, 2, 34, 9, 255, 255, 255, 255, 255, 255, 255, 251, 0, 0] := by
  decide

theorem serialize_reads_back_nested :
    readObject (some [nameB, nameA, nameC])
      ((nestedObject.serialize (some tokensB) true).buf ++ [7]) = .ok (nestedObject, [7]) :=
  ((serialize_reads_back nestedObject (by decide) (by decide) (some tokensB) true).1 _
    (.some (by decide))).2 [7]

/-! ## Zero bytes -/

/-- `writeString` without a token, of any `len` bytes: a `MojString` set from bytes with a length can hold a zero
byte, which the strings of the objects above do not. (A JSON escape for it is refused.) -/
def writeStringChars (val : List MojByte) : List MojByte := MarkerStringValue :: (val ++ [0])

/-- The reader takes the first zero byte for the end of the string. -/
theorem readObject_writeStringChars {pre : List MojByte} (hpre : 0 ∉ pre) (post rest : List MojByte) :
    readObject none (writeStringChars (pre ++ 0 :: post) ++ rest) =
      .ok (.string ⟨pre, hpre⟩, post ++ 0 :: rest) := by
  have hbytes : writeStringChars (pre ++ 0 :: post) ++ rest =
      ((MojObject.string ⟨pre, hpre⟩).serialize none false).buf ++ (post ++ 0 :: rest) := by
    rw [serialize_none_buf]
    simp [writeStringChars, toBytes, MojObject.visit, write, writeString, MojDataWriter.writeChars]
  rw [hbytes]
  refine readObject_serialize rfl rfl ?_ _
  rw [serialize_none]
  exact .none

/-- The bytes of the string `a\0b` are read as `a`, and begin with the bytes of `a`. -/
theorem not_reads_back_zero :
    readObject none (writeStringChars [97, 0, 98]) = .ok (.string nameA, [98, 0]) ∧
    (MojObject.string nameA).toBytes ++ [98, 0] = writeStringChars [97, 0, 98] :=
  ⟨readObject_writeStringChars zero_notMem_a [98] [], rfl⟩

end MojObject

end Db8
