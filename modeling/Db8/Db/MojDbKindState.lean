import Db8.Core.MojNumber
import Db8.Core.MojObjectSerialization

/-!
# Db.MojDbKindState

The token table of a kind: the object in the kind database, the name map and the vector in memory,
and the copies the open readers and writers hold.

* `addPropImpl`, `initTokens`  — a name is added, the table is loaded. Every write may fail.
* `tokenFromString`            — a request of one holder; its copy is swapped for what comes back.
* `Lists obj tokenVec`         — the object has for each name of the vector its token, and no other.
* `addPropImpl_shared`         — the copies change as the set of names does that the writer uses.
* `initTokens_loaded`          — what a load makes of the stored tokens.
-/

namespace Db8

open Lib MojObject MojObjectWriter MojTokenSet

/-- The token part of the state, with the record of the kind in the kind database. -/
structure MojDbKindState where
  record : MojObject
  tokensObj : MojObject
  tokenVec : List MojString
  nextToken : Nat
  deriving DecidableEq

namespace MojDbKindState

/-- `"tokens"`. -/
def TokensKey : MojString := ⟨[116, 111, 107, 101, 110, 115], by decide⟩

def tokenObject (token : Nat) : MojObject := .int (Int64.ofNat token)

/-- Under a transaction of its own, which is committed at once. -/
def writeTokens (s : MojDbKindState) (tokensObj : MojObject) (failure : Option MojErr) :
    Except MojErr MojDbKindState :=
  match failure with
  | some err => .error err
  | none => .ok { s with record := s.record.put TokensKey tokensObj }

/-- The results of `addPropImpl`, whose out-parameters stay as they were when it returns early. -/
structure Added where
  err : Option MojErr := none
  tokenOut : MojByte := InvalidToken
  vecOut : List MojString := []
  tokenObjOut : MojObject := .undefined
  state : MojDbKindState

def addPropImpl (s : MojDbKindState) (propName : MojString) (write : Bool) (failure : Option MojErr) :
    Added :=
  match s.tokensObj.getUInt32 propName with
  | .error err => { err := some err, state := s }
  | .ok (some token) => { tokenOut := Fin.ofNat 256 token, state := s }
  | .ok none =>
    if s.nextToken < 255 then
      let obj := s.tokensObj.put propName (tokenObject s.nextToken)
      let tokenVec := s.tokenVec ++ [propName]
      match if write then s.writeTokens obj failure else .ok s with
      | .error err => { err := some err, state := s }
      | .ok s =>
        { tokenOut := Fin.ofNat 256 s.nextToken, vecOut := tokenVec, tokenObjOut := obj,
          state := { s with tokensObj := obj, tokenVec := tokenVec, nextToken := s.nextToken + 1 } }
    else { state := s }

/-- The loop of `initTokens` over the stored tokens: the vector, and the greatest token. -/
def populate : List (MojString × MojObject) → List MojString → Nat → Option MojErr × List MojString × Nat
  | [], tokenVec, maxToken => (none, tokenVec, maxToken)
  | (key, val) :: ps, tokenVec, maxToken =>
    let value := val.intValue.toInt
    if value < TokenStartMarker ∨ 255 ≤ value ∨ tokenVec.length ≤ (value - TokenStartMarker).toNat then
      (some .dbInvalidToken, tokenVec, maxToken)
    else
      populate ps (tokenVec.set (value - TokenStartMarker).toNat key)
        (if (maxToken : Int) < value then value.toNat else maxToken)

/-- The second loop of `initTokens`: the strings of the schema, and whether one was not there. -/
def addStrings : MojDbKindState → List MojString → Bool → Option MojErr × Bool × MojDbKindState
  | s, [], updated => (none, updated, s)
  | s, str :: strings, updated =>
    if s.tokensObj.get str = none then
      match (s.addPropImpl str false none).err with
      | some err => (some err, true, (s.addPropImpl str false none).state)
      | none => addStrings (s.addPropImpl str false none).state strings true
    else addStrings s strings updated

/-- `initTokens` of a new state. After an error the state stays with the kind as it is then. -/
def initTokens (record : MojObject) (strings : List MojString) (failure : Option MojErr) :
    Option MojErr × MojDbKindState :=
  let tokensObj := (record.get TokensKey).getD .undefined
  match populate tokensObj.props (List.replicate tokensObj.props.length MojString.empty) 0 with
  | (some err, tokenVec, _) => (some err, ⟨record, tokensObj, tokenVec, TokenStartMarker⟩)
  | (none, tokenVec, maxToken) =>
    let nextToken := if 0 < maxToken then maxToken + 1 else TokenStartMarker
    match addStrings ⟨record, tokensObj, tokenVec, nextToken⟩ strings false with
    | (some err, _, s) => (some err, s)
    | (none, false, s) => (none, s)
    | (none, true, s) =>
      match s.writeTokens s.tokensObj failure with
      | .error err => (some err, s)
      | .ok s => (none, s)

end MojDbKindState

/-- `m_tokenVec` and `m_obj` of the `MojTokenSet` of an open reader or writer. -/
structure HeldTokenSet where
  tokenVec : List MojString
  obj : MojObject
  deriving DecidableEq

namespace MojDbKindState

def tokenSet (s : MojDbKindState) : HeldTokenSet := ⟨s.tokenVec, s.tokensObj⟩

/-- `MojTokenSet::tokenFromString` with the shared set: the error, the token, and both sets afterwards. -/
def tokenFromString (s : MojDbKindState) (held : HeldTokenSet) (str : MojString) (add : Bool)
    (failure : Option MojErr) : Option MojErr × MojByte × HeldTokenSet × MojDbKindState :=
  match held.obj.getUInt32 str with
  | .error err => (some err, InvalidToken, held, s)
  | .ok (some token) => (none, Fin.ofNat 256 token, held, s)
  | .ok none =>
    if add then
      let added := s.addPropImpl str true failure
      match added.err with
      | some err => (some err, added.tokenOut, held, added.state)
      | none => (none, added.tokenOut, ⟨added.vecOut, added.tokenObjOut⟩, added.state)
    else (none, InvalidToken, held, s)

/-! ## What the tables list -/

structure Lists (obj : MojObject) (tokenVec : List MojString) : Prop where
  ordered : obj.isOrdered = true
  nodup : tokenVec.Nodup
  room : TokenStartMarker + tokenVec.length ≤ 255
  get : ∀ name, obj.get name = (tokenVec.idxOf? name).map fun i => tokenObject (TokenStartMarker + i)

structure Coherent (s : MojDbKindState) : Prop where
  lists : Lists s.tokensObj s.tokenVec
  next : s.nextToken = TokenStartMarker + s.tokenVec.length

theorem toInt_tokenObject {token : Nat} (h : token ≤ 255) : (tokenObject token).intValue.toInt = token := by
  have hlt : token < 2 ^ 63 := by omega
  exact Int64.toInt_ofNat_of_lt hlt

theorem Lists.nil : Lists .undefined [] := ⟨rfl, List.nodup_nil, by decide, fun _ => rfl⟩

namespace Lists

variable {obj : MojObject} {tokenVec : List MojString}

theorem get_eq_none (h : Lists obj tokenVec) {name : MojString} : obj.get name = none ↔ name ∉ tokenVec := by
  rw [h.get, Option.map_eq_none_iff, List.idxOf?_eq_none_iff]

theorem getUInt32_eq (h : Lists obj tokenVec) (name : MojString) :
    obj.getUInt32 name = .ok ((tokenVec.idxOf? name).map (TokenStartMarker + ·)) := by
  rw [getUInt32, h.get]
  cases hi : tokenVec.idxOf? name with
  | none => rfl
  | some i =>
    obtain ⟨hlt, -, -⟩ := List.idxOf?_eq_some_iff.mp hi
    have hroom := h.room
    have hint := toInt_tokenObject (show TokenStartMarker + i ≤ 255 by omega)
    simp only [Option.map_some]
    rw [hint, if_pos (by simp only [TokenStartMarker] at *; omega)]
    rfl

theorem getUInt32_of_mem (h : Lists obj tokenVec) {name : MojString} (hmem : name ∈ tokenVec) :
    ∃ i, tokenVec[i]? = some name ∧ obj.getUInt32 name = .ok (some (TokenStartMarker + i)) := by
  have hne : tokenVec.idxOf? name ≠ none := fun he => List.idxOf?_eq_none_iff.mp he hmem
  obtain ⟨i, hi⟩ := Option.ne_none_iff_exists'.mp hne
  obtain ⟨hlt, hget, -⟩ := List.idxOf?_eq_some_iff.mp hi
  refine ⟨i, by rw [List.getElem?_eq_getElem hlt, hget], ?_⟩
  rw [h.getUInt32_eq, hi]
  rfl

theorem getUInt32_of_not_mem (h : Lists obj tokenVec) {name : MojString} (hmem : name ∉ tokenVec) :
    obj.getUInt32 name = .ok none := by
  rw [h.getUInt32_eq, List.idxOf?_eq_none_iff.mpr hmem]
  rfl

/-- A new name gets the next token. -/
theorem push (h : Lists obj tokenVec) {name : MojString} (hmem : name ∉ tokenVec)
    (hroom : TokenStartMarker + tokenVec.length < 255) :
    Lists (obj.put name (tokenObject (TokenStartMarker + tokenVec.length))) (tokenVec ++ [name]) := by
  refine ⟨isOrdered_put h.ordered rfl, ?_, ?_, ?_⟩
  · rw [List.nodup_append_comm, List.singleton_append, List.nodup_cons]
    exact ⟨hmem, h.nodup⟩
  · rw [List.length_append, List.length_singleton]
    omega
  · intro other
    by_cases he : other = name
    · subst he
      have hidx : (tokenVec ++ [other]).idxOf? other = some tokenVec.length := by
        rw [List.idxOf?_eq_some_iff]
        refine ⟨by simp, by simp, ?_⟩
        intro j hj hje
        rw [List.getElem_append_left (by omega)] at hje
        exact hmem (hje ▸ List.getElem_mem _)
      rw [get_put_self, hidx]
      rfl
    · rw [get_put_of_ne he, h.get]
      congr 1
      have hlast : List.findIdx? (· == other) [name] = none := by simp [Ne.symm he]
      rw [List.idxOf?, List.findIdx?_append, hlast]
      simp

end Lists

/-! ## Adding a name -/

/-- The table with one more name. -/
def push (s : MojDbKindState) (name : MojString) : MojDbKindState :=
  { s with
    tokensObj := s.tokensObj.put name (tokenObject s.nextToken)
    tokenVec := s.tokenVec ++ [name]
    nextToken := s.nextToken + 1 }

/-- The record holds what is in memory. -/
def written (s : MojDbKindState) : MojDbKindState := { s with record := s.record.put TokensKey s.tokensObj }

def storedTokens (record : MojObject) : MojObject := (record.get TokensKey).getD .undefined

@[simp] theorem written_tokenVec (s : MojDbKindState) : s.written.tokenVec = s.tokenVec := rfl
@[simp] theorem written_tokensObj (s : MojDbKindState) : s.written.tokensObj = s.tokensObj := rfl
@[simp] theorem push_tokenVec (s : MojDbKindState) (name : MojString) :
    (s.push name).tokenVec = s.tokenVec ++ [name] := rfl
@[simp] theorem push_record (s : MojDbKindState) (name : MojString) : (s.push name).record = s.record := rfl

@[simp] theorem storedTokens_written (s : MojDbKindState) : storedTokens s.written.record = s.tokensObj := by
  simp [storedTokens, written]

theorem Coherent.written {s : MojDbKindState} (h : Coherent s) : Coherent s.written := ⟨h.lists, h.next⟩

variable {s : MojDbKindState} {name : MojString} {write : Bool} {failure : Option MojErr}

theorem Coherent.push (h : Coherent s) (hmem : name ∉ s.tokenVec) (hroom : s.nextToken < 255) :
    Coherent (s.push name) := by
  have hnext := h.next
  refine ⟨?_, ?_⟩
  · unfold MojDbKindState.push
    rw [hnext]
    exact h.lists.push hmem (by omega)
  · simp only [MojDbKindState.push, List.length_append, List.length_singleton]
    omega

theorem addPropImpl_known (h : Coherent s) (hmem : name ∈ s.tokenVec) :
    ∃ i, s.tokenVec[i]? = some name ∧
      s.addPropImpl name write failure = { tokenOut := tokenMarker i, state := s } := by
  obtain ⟨i, hi, hget⟩ := h.lists.getUInt32_of_mem hmem
  refine ⟨i, hi, ?_⟩
  unfold addPropImpl
  rw [hget]
  rfl

theorem addPropImpl_full (h : Coherent s) (hmem : name ∉ s.tokenVec) (hfull : ¬s.nextToken < 255) :
    s.addPropImpl name write failure = { state := s } := by
  unfold addPropImpl
  rw [h.lists.getUInt32_of_not_mem hmem]
  simp only [hfull, if_false]

/-- A failed write leaves the state as it was. -/
theorem addPropImpl_failed (h : Coherent s) (hmem : name ∉ s.tokenVec) (hroom : s.nextToken < 255) (err : MojErr) :
    s.addPropImpl name true (some err) = { err := some err, state := s } := by
  unfold addPropImpl
  rw [h.lists.getUInt32_of_not_mem hmem]
  simp only [hroom, if_true]
  rfl

theorem addPropImpl_added (h : Coherent s) (hmem : name ∉ s.tokenVec) (hroom : s.nextToken < 255) :
    s.addPropImpl name true none =
      { tokenOut := tokenMarker s.tokenVec.length, vecOut := s.tokenVec ++ [name],
        tokenObjOut := (s.push name).tokensObj, state := (s.push name).written } := by
  have htoken : tokenMarker s.tokenVec.length = Fin.ofNat 256 s.nextToken := by rw [h.next]; rfl
  unfold addPropImpl
  rw [h.lists.getUInt32_of_not_mem hmem, htoken]
  simp only [hroom, if_true]
  rfl

/-- Without `write` the name is added in memory only. -/
theorem addPropImpl_inMemory (h : Coherent s) (hmem : name ∉ s.tokenVec) (hroom : s.nextToken < 255) :
    (s.addPropImpl name false failure).err = none ∧
      (s.addPropImpl name false failure).state = s.push name := by
  unfold addPropImpl
  rw [h.lists.getUInt32_of_not_mem hmem]
  simp only [hroom, if_true]
  exact ⟨rfl, rfl⟩

theorem Coherent.token_names (h : Coherent s) {i : Nat} (hi : s.tokenVec[i]? = some name) :
    stringFromToken s.tokenVec (tokenMarker i) = .ok name := by
  have hroom := h.lists.room
  have hlt := (List.getElem?_eq_some_iff.mp hi).1
  simp only [TokenStartMarker] at hroom
  exact MojObjectReader.stringFromToken_tokenMarker (by omega) hi

/-- The shared set of names that a coherent state stands for. -/
def Coherent.shared (h : Coherent s) : MojSharedTokenSet := ⟨s.tokenVec, h.lists.nodup, h.lists.room⟩

/-! ## Loading the table -/

/-- The tokens of some nodes are those of the vector. -/
def ListedIn (tokenVec : List MojString) (ps : List (MojString × MojObject)) : Prop :=
  ∀ p ∈ ps, ∃ i, tokenVec[i]? = some p.1 ∧ p.2 = tokenObject (TokenStartMarker + i)

theorem populate_cons {tokenVec acc : List MojString} (hroom : TokenStartMarker + tokenVec.length ≤ 255)
    (hlen : acc.length = tokenVec.length) {key : MojString} {i : Nat} (hi : tokenVec[i]? = some key)
    (ps : List (MojString × MojObject)) (maxToken : Nat) :
    populate ((key, tokenObject (TokenStartMarker + i)) :: ps) acc maxToken =
      populate ps (acc.set i key) (max maxToken (TokenStartMarker + i)) := by
  have hlt := (List.getElem?_eq_some_iff.mp hi).1
  have hint := toInt_tokenObject (show TokenStartMarker + i ≤ 255 by omega)
  have hidx : ((TokenStartMarker + i : Nat) - (TokenStartMarker : Int)).toNat = i := by omega
  have hok : ¬(((TokenStartMarker + i : Nat) : Int) < TokenStartMarker ∨ (255 : Int) ≤ (TokenStartMarker + i : Nat) ∨
      acc.length ≤ i) := by omega
  simp only [populate, hint, hidx]
  rw [if_neg hok]
  congr 1
  split_ifs with hmax
  · omega
  · omega

/-- The vector is filled in, place by place. -/
theorem populate_spec {tokenVec : List MojString} (hroom : TokenStartMarker + tokenVec.length ≤ 255)
    {ps : List (MojString × MojObject)} (hps : ListedIn tokenVec ps) {acc : List MojString}
    (hlen : acc.length = tokenVec.length) (maxToken : Nat) :
    ∃ acc' max', populate ps acc maxToken = (none, acc', max') ∧ acc'.length = tokenVec.length ∧
      (∀ (i : Nat), acc[i]? = tokenVec[i]? ∨ (∃ p ∈ ps, tokenVec[i]? = some p.1 ∧
        p.2 = tokenObject (TokenStartMarker + i)) → acc'[i]? = tokenVec[i]?) ∧
      maxToken ≤ max' ∧ (max' = maxToken ∨ max' < TokenStartMarker + tokenVec.length) ∧
      ∀ p ∈ ps, ∀ i : Nat, tokenVec[i]? = some p.1 → p.2 = tokenObject (TokenStartMarker + i) →
        TokenStartMarker + i ≤ max' := by
  induction ps generalizing acc maxToken with
  | nil =>
    refine ⟨acc, maxToken, rfl, hlen, ?_, le_rfl, .inl rfl, by simp⟩
    intro i hi
    cases hi with
    | inl hi => exact hi
    | inr hi =>
      obtain ⟨p, hp, -⟩ := hi
      cases hp
  | cons p ps ih =>
    obtain ⟨key, val⟩ := p
    obtain ⟨j, hj, rfl⟩ := hps (key, val) List.mem_cons_self
    have hlt := (List.getElem?_eq_some_iff.mp hj).1
    have hjval := toInt_tokenObject (show TokenStartMarker + j ≤ 255 by omega)
    obtain ⟨acc', max', heq, hlen', hfill, hle, hmax, hall⟩ :=
      ih (fun q hq => hps q (List.mem_cons_of_mem _ hq)) (show (acc.set j key).length = tokenVec.length by rw [List.length_set, hlen])
        (max maxToken (TokenStartMarker + j))
    refine ⟨acc', max', ?_, hlen', ?_, by omega, ?_, ?_⟩
    · rw [populate_cons hroom hlen hj, heq]
    · intro i hi
      refine hfill i ?_
      by_cases hij : j = i
      · subst hij
        rw [List.getElem?_set_self (by omega)]
        exact .inl hj.symm
      · rw [List.getElem?_set_ne hij]
        refine hi.imp id ?_
        intro ⟨p, hp, hname, hval⟩
        cases List.mem_cons.mp hp with
        | inl he =>
          subst he
          have hival := (List.getElem?_eq_some_iff.mp hname).1
          have := toInt_tokenObject (show TokenStartMarker + i ≤ 255 by omega)
          rw [← hval, hjval] at this
          omega
        | inr hp => exact ⟨p, hp, hname, hval⟩
    · omega
    · intro p hp i hname hval
      cases List.mem_cons.mp hp with
      | inl he =>
        subst he
        have hival := (List.getElem?_eq_some_iff.mp hname).1
        have := toInt_tokenObject (show TokenStartMarker + i ≤ 255 by omega)
        rw [← hval, hjval] at this
        omega
      | inr hp => exact hall p hp i hname hval

theorem Lists.listedIn {obj : MojObject} {tokenVec : List MojString} (h : Lists obj tokenVec) :
    ListedIn tokenVec obj.props := by
  intro p hp
  have hget := (get_eq_some h.ordered).mpr hp
  rw [h.get, Option.map_eq_some_iff] at hget
  obtain ⟨i, hi, hval⟩ := hget
  obtain ⟨hlt, heq, -⟩ := List.idxOf?_eq_some_iff.mp hi
  exact ⟨i, by rw [List.getElem?_eq_getElem hlt, heq], hval.symm⟩

/-- Every name has its node. -/
theorem Lists.exists_prop {obj : MojObject} {tokenVec : List MojString} (h : Lists obj tokenVec) {i : Nat}
    {name : MojString} (hi : tokenVec[i]? = some name) :
    (name, tokenObject (TokenStartMarker + i)) ∈ obj.props := by
  obtain ⟨hlt, heq⟩ := List.getElem?_eq_some_iff.mp hi
  have hidx : tokenVec.idxOf? name = some i := by
    rw [List.idxOf?_eq_some_iff]
    refine ⟨hlt, heq, ?_⟩
    intro j hj hje
    have := (List.Nodup.getElem_inj_iff h.nodup).mp (hje.trans heq.symm)
    omega
  rw [← get_eq_some h.ordered, h.get, hidx]
  rfl

theorem Lists.length_props {obj : MojObject} {tokenVec : List MojString} (h : Lists obj tokenVec) :
    obj.props.length = tokenVec.length := by
  have hperm : (obj.props.map Prod.fst).Perm tokenVec := by
    rw [List.perm_ext_iff_of_nodup (nodup_keys (isOrderedProps_props h.ordered)) h.nodup]
    intro name
    constructor
    · intro hmem
      obtain ⟨p, hp, rfl⟩ := List.mem_map.mp hmem
      obtain ⟨i, hi, -⟩ := h.listedIn p hp
      exact List.mem_of_getElem? hi
    · intro hmem
      obtain ⟨i, hi⟩ := List.mem_iff_getElem?.mp hmem
      exact List.mem_map_of_mem (h.exists_prop hi)
  rw [← List.length_map (f := Prod.fst), hperm.length_eq]

theorem populate_eq {obj : MojObject} {tokenVec : List MojString} (h : Lists obj tokenVec) :
    ∃ maxToken, populate obj.props (List.replicate obj.props.length MojString.empty) 0 =
        (none, tokenVec, maxToken) ∧
      (if 0 < maxToken then maxToken + 1 else TokenStartMarker) = TokenStartMarker + tokenVec.length := by
  obtain ⟨acc, maxToken, heq, hlen, hfill, -, hmax, hall⟩ := populate_spec h.room h.listedIn
    (show (List.replicate obj.props.length MojString.empty).length = tokenVec.length by
      rw [List.length_replicate, h.length_props]) 0
  have hvec : acc = tokenVec := by
    refine List.ext_getElem? fun i => hfill i ?_
    cases hi : tokenVec[i]? with
    | none =>
      refine .inl (List.getElem?_eq_none_iff.mpr ?_)
      rw [List.length_replicate, h.length_props]
      exact List.getElem?_eq_none_iff.mp hi
    | some name => exact .inr ⟨_, h.exists_prop hi, rfl, rfl⟩
  subst hvec
  refine ⟨maxToken, heq, ?_⟩
  cases hi : acc.length with
  | zero =>
    have hps : obj.props = [] := List.length_eq_zero_iff.mp (h.length_props.trans hi)
    rw [hps] at heq
    obtain rfl : 0 = maxToken := congrArg (·.2.2) heq
    rfl
  | succ n =>
    have hlast : acc[n]? = some acc[n] := List.getElem?_eq_getElem (by omega)
    have hge := hall _ (h.exists_prop hlast) n hlast rfl
    have hstart : 0 < TokenStartMarker := by decide
    rw [if_pos (by omega)]
    omega

/-- The names a state has no room for are not added, and the others come behind those it has. -/
theorem addStrings_spec (h : Coherent s) (strings : List MojString) (updated : Bool) :
    ∃ updated' s', s.addStrings strings updated = (none, updated', s') ∧ Coherent s' ∧ s'.record = s.record ∧
      s.tokenVec <+: s'.tokenVec ∧ (updated' = false → s' = s) ∧
      ((∀ str ∈ strings, str ∈ s.tokenVec) ∨ ¬s.nextToken < 255 → s' = s) ∧
      (s'.tokenVec = s.tokenVec → (∀ str ∈ strings, str ∈ s.tokenVec) ∨ ¬s.nextToken < 255) ∧
      (updated = true → updated' = true) := by
  induction strings generalizing s updated with
  | nil => exact ⟨updated, s, rfl, h, rfl, List.prefix_rfl, fun _ => rfl, fun _ => rfl, fun _ => .inl (by simp), id⟩
  | cons str strings ih =>
    by_cases hmem : str ∈ s.tokenVec
    · have hget : s.tokensObj.get str ≠ none := fun he => h.lists.get_eq_none.mp he hmem
      obtain ⟨updated', s', heq, hrest⟩ := ih h updated
      refine ⟨updated', s', by rw [addStrings, if_neg hget, heq], ?_⟩
      simpa [hmem] using hrest
    · have hget : s.tokensObj.get str = none := h.lists.get_eq_none.mpr hmem
      by_cases hroom : s.nextToken < 255
      · obtain ⟨herr, hstate⟩ := @addPropImpl_inMemory s _ none h hmem hroom
        obtain ⟨updated', s', heq, hco, hrec, hpre, hupd, -, -, htrue⟩ := ih (h.push hmem hroom) true
        refine ⟨updated', s', ?_, hco, hrec, ?_, ?_, ?_, ?_, fun _ => htrue rfl⟩
        · rw [addStrings, if_pos hget, herr, hstate]
          exact heq
        · exact (List.prefix_append _ _).trans hpre
        · intro hfalse
          rw [htrue rfl] at hfalse
          cases hfalse
        · intro hno
          cases hno with
          | inl hno => exact absurd (hno str List.mem_cons_self) hmem
          | inr hno => exact absurd hroom hno
        · intro hsame
          have hlen := hpre.length_le
          rw [hsame, push_tokenVec, List.length_append, List.length_singleton] at hlen
          omega
      · have hadd := @addPropImpl_full s _ false none h hmem hroom
        obtain ⟨updated', s', heq, hco, hrec, hpre, hupd, hsame, -, htrue⟩ := ih h true
        refine ⟨updated', s', ?_, hco, hrec, hpre, ?_, ?_, fun _ => .inr hroom, fun _ => htrue rfl⟩
        · rw [addStrings, if_pos hget, hadd]
          exact heq
        · intro hfalse
          rw [htrue rfl] at hfalse
          cases hfalse
        · exact fun _ => hsame (.inr hroom)

/-- What a load makes of the stored tokens. The strings of the schema are in memory also when the write
has failed. -/
structure Loaded (record : MojObject) (stored strings : List MojString) (failure err : Option MojErr)
    (s : MojDbKindState) : Prop where
  coherent : Coherent s
  grows : stored <+: s.tokenVec
  persisted : ∃ vec, Lists (storedTokens s.record) vec ∧ vec <+: s.tokenVec
  succeeds : failure = none → err = none
  synced : err = none → storedTokens s.record = s.tokensObj
  failed : err ≠ none → s.record = record
  unwritten : failure ≠ none → err = none → s.tokenVec = stored
  kept : (∀ str ∈ strings, str ∈ stored) ∨ ¬TokenStartMarker + stored.length < 255 →
    s.tokensObj = storedTokens record ∧ s.tokenVec = stored
  added : s.tokenVec = stored → (∀ str ∈ strings, str ∈ stored) ∨ ¬TokenStartMarker + stored.length < 255

theorem initTokens_loaded {record : MojObject} {stored : List MojString} (h : Lists (storedTokens record) stored)
    (strings : List MojString) (failure : Option MojErr) :
    Loaded record stored strings failure (initTokens record strings failure).1
      (initTokens record strings failure).2 := by
  obtain ⟨maxToken, hpop, hnext⟩ := populate_eq h
  have hco : Coherent ⟨record, storedTokens record, stored, TokenStartMarker + stored.length⟩ := ⟨h, rfl⟩
  obtain ⟨updated, s', heq, hco', hrec, hpre, hupd, hsame, hvec, -⟩ := addStrings_spec hco strings false
  have hinit : initTokens record strings failure =
      match ((none, updated, s') : Option MojErr × Bool × MojDbKindState) with
      | (some err, _, s) => (some err, s)
      | (none, false, s) => (none, s)
      | (none, true, s) =>
        match s.writeTokens s.tokensObj failure with
        | .error err => (some err, s)
        | .ok s => (none, s) := by
    rw [← heq, ← hnext]
    unfold initTokens
    simp only [storedTokens] at hpop ⊢
    rw [hpop]
  have hobj : (∀ str ∈ strings, str ∈ stored) ∨ ¬TokenStartMarker + stored.length < 255 →
      s'.tokensObj = storedTokens record ∧ s'.tokenVec = stored := by
    intro hno
    rw [hsame hno]
    exact ⟨rfl, rfl⟩
  rw [hinit]
  cases updated with
  | false =>
    obtain rfl := hupd rfl
    exact ⟨hco, List.prefix_rfl, ⟨stored, h, List.prefix_rfl⟩, fun _ => rfl, fun _ => rfl,
      fun hne => absurd rfl hne, fun _ _ => rfl, hobj, hvec⟩
  | true =>
    cases failure with
    | none =>
      refine ⟨hco'.written, hpre, ⟨s'.tokenVec, ?_, List.prefix_rfl⟩, fun _ => rfl, ?_, ?_, ?_, hobj, hvec⟩
      · exact (storedTokens_written s').symm ▸ hco'.lists
      · intro _
        exact storedTokens_written s'
      · intro hne
        exact absurd rfl hne
      · intro hne
        exact absurd rfl hne
    | some err =>
      refine ⟨hco', hpre, ⟨stored, ?_, hpre⟩, ?_, ?_, fun _ => hrec, ?_, hobj, hvec⟩
      · exact hrec.symm ▸ h
      · intro hnone
        cases hnone
      · intro hnone
        cases hnone
      · intro _ hnone
        cases hnone

end MojDbKindState

end Db8
