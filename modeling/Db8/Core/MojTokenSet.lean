import Db8.Core.MojErr
import Db8.Core.MojObjectWriter

/-!
# Core.MojTokenSet

The one-byte tokens a kind has for property names, and the writer that uses them.

* `MojSharedTokenSet`  — the names of a kind in the order of their tokens; `addPropImpl` adds one.
* `MojTokenSet`        — the copy of it that one writer or reader holds.
* `MojObjectWriter`    — the writer with its buffer; a property name without a token gets one while
  there are tokens left, a string value only uses the tokens there are.
* `Spells names v bs`  — `bs` is the event `v`, in full or as a token for one of the names.
* `visit_spells`       — each call of the writer appends a spelling of its event, by the names the
  shared set has when the writer is done.
-/

namespace Db8

open Lib MojObject

namespace MojObjectWriter

def MarkerExtensionValue : MojByte := 15
def TokenStartMarker : Nat := 32

end MojObjectWriter

open MojObjectWriter

namespace MojTokenSet

def InvalidToken : MojByte := 0

def tokenMarker (i : Nat) : MojByte := Fin.ofNat 256 (TokenStartMarker + i)

/-- The look-up in `m_tokensObj`, which holds for every name of the vector its place after
`TokenStartMarker`. -/
def tokenOf (tokenVec : List MojString) (str : MojString) : Option MojByte :=
  (tokenVec.idxOf? str).map tokenMarker

def stringFromToken (tokenVec : List MojString) (token : MojByte) : Except MojErr MojString :=
  if token.val < TokenStartMarker then .error .dbInvalidToken
  else match tokenVec[token.val - TokenStartMarker]? with
    | none => .error .dbInvalidToken
    | some name => .ok name

end MojTokenSet

open MojTokenSet

/-- The token part of `MojDbKindState`, the one `MojSharedTokenSet` there is. -/
structure MojSharedTokenSet where
  tokenVec : List MojString
  nodup : tokenVec.Nodup
  room : TokenStartMarker + tokenVec.length ≤ 255

namespace MojSharedTokenSet

def empty : MojSharedTokenSet := ⟨[], List.nodup_nil, by decide⟩

def nextToken (s : MojSharedTokenSet) : Nat := TokenStartMarker + s.tokenVec.length

theorem tokenOf_eq_none {tokenVec : List MojString} {str : MojString} :
    tokenOf tokenVec str = none ↔ str ∉ tokenVec := by
  simp [tokenOf, List.idxOf?_eq_none_iff]

theorem nodup_push {s : MojSharedTokenSet} {propName : MojString}
    (h : tokenOf s.tokenVec propName = none) : (s.tokenVec ++ [propName]).Nodup := by
  rw [List.nodup_append_comm, List.singleton_append, List.nodup_cons]
  exact ⟨tokenOf_eq_none.mp h, s.nodup⟩

theorem room_push {s : MojSharedTokenSet} {propName : MojString} (h : s.nextToken < 255) :
    TokenStartMarker + (s.tokenVec ++ [propName]).length ≤ 255 := by
  simp only [nextToken] at h
  rw [List.length_append, List.length_singleton]
  omega

/-- `MojDbKindState::addPropImpl`: the token, the vector handed out and the set afterwards. The
vector stays empty when another writer has added the name meanwhile, and when no token is left. -/
def addPropImpl (s : MojSharedTokenSet) (propName : MojString) :
    MojByte × List MojString × MojSharedTokenSet :=
  match h : tokenOf s.tokenVec propName with
  | some token => (token, [], s)
  | none =>
    if hroom : s.nextToken < 255 then
      (Fin.ofNat 256 s.nextToken, s.tokenVec ++ [propName],
        ⟨s.tokenVec ++ [propName], nodup_push h, room_push hroom⟩)
    else (InvalidToken, [], s)

theorem addPropImpl_vec (s : MojSharedTokenSet) (propName : MojString) :
    (s.addPropImpl propName).2.1 <+: (s.addPropImpl propName).2.2.tokenVec := by
  unfold addPropImpl
  split
  · exact List.nil_prefix
  · split_ifs
    · exact List.prefix_rfl
    · exact List.nil_prefix

theorem addPropImpl_grows (s : MojSharedTokenSet) (propName : MojString) :
    s.tokenVec <+: (s.addPropImpl propName).2.2.tokenVec := by
  unfold addPropImpl
  split
  · exact List.prefix_rfl
  · split_ifs
    · exact List.prefix_append _ _
    · exact List.prefix_rfl

end MojSharedTokenSet

/-- `m_tokenVec` with `m_obj`, a copy of the shared set made at some time, or empty. -/
structure MojTokenSet where
  shared : MojSharedTokenSet
  tokenVec : List MojString
  copied : tokenVec <+: shared.tokenVec

namespace MojTokenSet

def init (shared : MojSharedTokenSet) : MojTokenSet := ⟨shared, shared.tokenVec, List.prefix_rfl⟩

def tokenFromString (t : MojTokenSet) (str : MojString) (add : Bool) : MojByte × MojTokenSet :=
  match tokenOf t.tokenVec str with
  | some token => (token, t)
  | none =>
    if add then
      ((t.shared.addPropImpl str).1, ⟨(t.shared.addPropImpl str).2.2, (t.shared.addPropImpl str).2.1,
        t.shared.addPropImpl_vec str⟩)
    else (InvalidToken, t)

theorem tokenFromString_grows (t : MojTokenSet) (str : MojString) (add : Bool) :
    t.shared.tokenVec <+: (t.tokenFromString str add).2.shared.tokenVec := by
  unfold tokenFromString
  split
  · exact List.prefix_rfl
  · split_ifs
    · exact t.shared.addPropImpl_grows str
    · exact List.prefix_rfl

theorem tokenOf_eq_some {tokenVec : List MojString} {str : MojString} {token : MojByte}
    (h : tokenOf tokenVec str = some token) :
    ∃ i, tokenVec[i]? = some str ∧ token = tokenMarker i := by
  simp only [tokenOf, Option.map_eq_some_iff] at h
  obtain ⟨i, hi, htoken⟩ := h
  obtain ⟨hlt, hget, -⟩ := List.idxOf?_eq_some_iff.mp hi
  exact ⟨i, by rw [List.getElem?_eq_getElem hlt, hget], htoken.symm⟩

theorem getElem?_mono {vec vec' : List MojString} (h : vec <+: vec') {i : Nat} {str : MojString}
    (hi : vec[i]? = some str) : vec'[i]? = some str := by
  obtain ⟨rest, rfl⟩ := h
  rw [List.getElem?_append_left (List.getElem?_eq_some_iff.mp hi).1, hi]

theorem addPropImpl_token (s : MojSharedTokenSet) (str : MojString)
    (h : (s.addPropImpl str).1 ≠ InvalidToken) :
    ∃ i, (s.addPropImpl str).2.2.tokenVec[i]? = some str ∧ (s.addPropImpl str).1 = tokenMarker i := by
  unfold MojSharedTokenSet.addPropImpl at h ⊢
  split at h
  · rename_i token htoken
    exact tokenOf_eq_some htoken
  · split_ifs at h ⊢
    · exact ⟨s.tokenVec.length, List.getElem?_concat_length, rfl⟩
    · exact absurd rfl h

/-- A token that is handed out stands for its name in the shared set. -/
theorem tokenFromString_names (t : MojTokenSet) (str : MojString) (add : Bool)
    (h : (t.tokenFromString str add).1 ≠ InvalidToken) :
    ∃ i, (t.tokenFromString str add).2.shared.tokenVec[i]? = some str ∧
      (t.tokenFromString str add).1 = tokenMarker i := by
  unfold tokenFromString at h ⊢
  split at h
  · rename_i token htoken
    obtain ⟨i, hi, heq⟩ := tokenOf_eq_some htoken
    exact ⟨i, getElem?_mono t.copied hi, heq⟩
  · split_ifs at h ⊢
    · exact addPropImpl_token t.shared str h
    · exact absurd rfl h

end MojTokenSet

/-! ## The writer -/

structure MojObjectWriter where
  buf : List MojByte
  tokenSet : Option MojTokenSet
  populate : Bool

namespace MojObjectWriter

def putString (w : MojObjectWriter) (val : MojString) (addToken : Bool) : MojObjectWriter :=
  match w.tokenSet with
  | none => { w with buf := w.buf ++ writeString val }
  | some t =>
    if (t.tokenFromString val addToken).1 ≠ InvalidToken then
      { w with
        buf := w.buf ++ [(t.tokenFromString val addToken).1]
        tokenSet := some (t.tokenFromString val addToken).2 }
    else
      { w with
        buf := w.buf ++ writeString val
        tokenSet := some (t.tokenFromString val addToken).2 }

/-- One call of the visitor. -/
def call (w : MojObjectWriter) : Visit → MojObjectWriter
  | .propName name => w.putString name w.populate
  | .stringValue val => w.putString val false
  | v => { w with buf := w.buf ++ write v }

def visit (w : MojObjectWriter) (vs : List Visit) : MojObjectWriter := vs.foldl call w

/-- The names the tokens of a written object are read with. -/
def names (w : MojObjectWriter) : Option (List MojString) := w.tokenSet.map fun t => t.shared.tokenVec

/-! ## Spellings -/

def SpellsString (names : Option (List MojString)) (str : MojString) (bs : List MojByte) : Prop :=
  bs = writeString str ∨
    ∃ vec i, names = some vec ∧ i < 223 ∧ vec[i]? = some str ∧ bs = [tokenMarker i]

def Spells (names : Option (List MojString)) : Visit → List MojByte → Prop
  | .propName name, bs => SpellsString names name bs
  | .stringValue val, bs => SpellsString names val bs
  | v, bs => bs = write v

/-- The names of the second set begin with those of the first. -/
abbrev Grows : Option (List MojString) → Option (List MojString) → Prop := Option.Rel (· <+: ·)

theorem grows_refl (names : Option (List MojString)) : Grows names names := by
  cases names with
  | none => exact .none
  | some vec => exact .some List.prefix_rfl

theorem Grows.trans {a b c : Option (List MojString)} (h : Grows a b) (h' : Grows b c) : Grows a c := by
  cases h with
  | none => exact h'
  | some hab =>
    cases h' with
    | some hbc => exact .some (hab.trans hbc)

theorem Spells.mono {names names' : Option (List MojString)} (hg : Grows names names') {v : Visit}
    {bs : List MojByte} (h : Spells names v bs) : Spells names' v bs := by
  have hstr : ∀ str, SpellsString names str bs → SpellsString names' str bs := by
    intro str hs
    cases hs with
    | inl hs => exact .inl hs
    | inr hs =>
      obtain ⟨vec, i, rfl, hi, hget, rfl⟩ := hs
      cases hg with
      | some hpre => exact .inr ⟨_, i, rfl, hi, getElem?_mono hpre hget, rfl⟩
  cases v with
  | propName name => exact hstr name h
  | stringValue val => exact hstr val h
  | _ => exact h

theorem putString_names (w : MojObjectWriter) (val : MojString) (addToken : Bool) :
    Grows w.names (w.putString val addToken).names := by
  obtain ⟨buf, tokenSet, populate⟩ := w
  cases tokenSet with
  | none => exact .none
  | some t =>
    simp only [putString, names]
    split_ifs
    all_goals exact .some (t.tokenFromString_grows val addToken)

theorem putString_spells (w : MojObjectWriter) (val : MojString) (addToken : Bool) :
    ∃ bs, (w.putString val addToken).buf = w.buf ++ bs ∧
      SpellsString (w.putString val addToken).names val bs := by
  obtain ⟨buf, tokenSet, populate⟩ := w
  cases tokenSet with
  | none => exact ⟨_, rfl, .inl rfl⟩
  | some t =>
    simp only [putString, names]
    split_ifs with h
    · obtain ⟨i, hget, htoken⟩ := t.tokenFromString_names val addToken h
      have hroom := (t.tokenFromString val addToken).2.shared.room
      have hlt := (List.getElem?_eq_some_iff.mp hget).1
      exact ⟨_, rfl, .inr ⟨_, i, rfl, by simp only [TokenStartMarker] at hroom; omega, hget,
        congrArg (fun token => [token]) htoken⟩⟩
    · exact ⟨_, rfl, .inl rfl⟩

theorem call_names (w : MojObjectWriter) (v : Visit) : Grows w.names (w.call v).names := by
  cases v with
  | propName name => exact w.putString_names name w.populate
  | stringValue val => exact w.putString_names val false
  | _ => exact grows_refl _

theorem call_spells (w : MojObjectWriter) (v : Visit) :
    ∃ bs, (w.call v).buf = w.buf ++ bs ∧ Spells (w.call v).names v bs := by
  cases v with
  | propName name => exact w.putString_spells name w.populate
  | stringValue val => exact w.putString_spells val false
  | _ => exact ⟨_, rfl, rfl⟩

theorem visit_names (w : MojObjectWriter) (vs : List Visit) : Grows w.names (w.visit vs).names := by
  induction vs generalizing w with
  | nil => exact grows_refl _
  | cons v vs ih => exact (w.call_names v).trans (ih (w.call v))

/-- What a writer appends to its buffer, call by call. -/
theorem visit_spells (w : MojObjectWriter) (vs : List Visit) :
    ∃ bss, (w.visit vs).buf = w.buf ++ bss.flatten ∧
      List.Forall₂ (Spells (w.visit vs).names) vs bss := by
  induction vs generalizing w with
  | nil => exact ⟨[], by simp [visit], .nil⟩
  | cons v vs ih =>
    obtain ⟨bs, hbuf, hspells⟩ := w.call_spells v
    obtain ⟨bss, hbufs, hall⟩ := ih (w.call v)
    refine ⟨bs :: bss, ?_, .cons (hspells.mono ((w.call v).visit_names vs)) hall⟩
    change ((w.call v).visit vs).buf = _
    rw [hbufs, hbuf, List.flatten_cons, List.append_assoc]

end MojObjectWriter

end Db8
