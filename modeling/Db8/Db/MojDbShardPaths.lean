import Db8.Db.MojDbShardIds

/-!
# Db.MojDbShardPaths

The shard that each path through the database takes an id to be of.

* `attachShardId`, `putShard` — a put, which refuses ids that are too long.
* `getShard`, `delShard`      — get and delete.
* `checkShard`                — a query, which takes an id that is no base64 to be of the main shard.
* `pathsAgree_iff`            — the ids on which they agree.
-/

namespace Db8

open Lib MojDbIdGenerator

def MojDbFlagNone : Nat := 0

namespace MojDb

/-- `_kinds/` -/
def KindIdPrefixChars : List MojByte := [95, 107, 105, 110, 100, 115, 47]

/-- `_internal/dbstate` -/
def DbStateObjIdChars : List MojByte := [95, 105, 110, 116, 101, 114, 110, 97, 108, 47, 100, 98, 115, 116, 97, 116, 101]

/-- `_quotas/` -/
def QuotaIdPrefixChars : List MojByte := [95, 113, 117, 111, 116, 97, 115, 47]

/-- `_permissions/` -/
def PermissionIdPrefixChars : List MojByte := [95, 112, 101, 114, 109, 105, 115, 115, 105, 111, 110, 115, 47]

/-- The ids of the database's own objects. -/
def isOwn (id : MojString) : Bool :=
  KindIdPrefixChars.isPrefixOf id.chars || DbStateObjIdChars.isPrefixOf id.chars ||
    QuotaIdPrefixChars.isPrefixOf id.chars || PermissionIdPrefixChars.isPrefixOf id.chars

/-- The encoding of twelve bytes of ones, `zzzzzzzzzzzzzzzz`. -/
def maxLongId : List MojByte := List.replicate 16 122

/-- The encoding of eight bytes of ones, `zzzzzzzzzzw`. -/
def maxShortId : List MojByte := List.replicate 10 122 ++ [119]

def attachShardId (shardId id : MojString) : Except MojErr MojString :=
  if isOwn id then .ok id
  else if id.chars.length > 16 ∨ maxLongId < id.chars then .error .dbMalformedId
  else if shardId.isEmpty then .ok id
  else if id.chars.length ≤ 11 ∧ id.chars ≤ maxShortId then do
    let idByteVec ← decodeString id.chars
    let byteVec ← decodeString shardId.chars
    return ⟨base64Encode (byteVec ++ idByteVec), zero_notMem_base64Encode _⟩
  else .ok id

/-- The shard that `putImpl` stores an object of the id in. -/
def putShard (flags : Nat) (shardIdStr id : MojString) : Except MojErr MojDbShardId :=
  if flags = MojDbFlagNone then do
    let id ← attachShardId shardIdStr id
    extractShard (.string id)
  else extractShard (.string id)

/-- The shard that `getImpl` reads. -/
def getShard (id : MojString) : Except MojErr MojDbShardId := extractShard (.string id)

/-- The shard that `delImpl` and `delObj` delete from. -/
def delShard (id : MojString) : Except MojErr MojDbShardId := extractShard (.string id)

end MojDb

namespace MojDbIsamQuery

/-- `checkShard`: whether the object of the id is passed over. -/
def checkShard (st : MojDbShardEngine) (id : MojObject) : Except MojErr Bool :=
  match extractShard id with
  | .error .invalidBase64Data => .ok (st.checkShard MainShardId)
  | .error err => .error err
  | .ok shardId => .ok (st.checkShard shardId)

end MojDbIsamQuery

namespace MojDbSandwichQuery

/-- The shard that `getById` reads. -/
def getByIdShard (id : MojString) : Except MojErr MojDbShardId := extractShard (.string id)

end MojDbSandwichQuery

namespace MojDbIdGenerator

/-! ## Ids that name a shard -/

/-- An id of the form that ids with a shard have. -/
def NamesShard (id : MojString) : Prop := id.chars.length = LongIdChars ∧ id.chars.head? ≠ some 95

/-- All characters but the padding are in the alphabet. -/
def Decodes (id : MojString) : Prop := ∀ c ∈ trimPadding id.chars, base64Val c ≠ none

theorem mapM_base64Val_of_forall {chars : List MojByte} (h : ∀ c ∈ chars, base64Val c ≠ none) :
    ∃ vals, chars.mapM base64Val = some vals ∧ vals.length = chars.length := by
  induction chars with
  | nil => exact ⟨[], rfl, rfl⟩
  | cons c chars ih =>
    obtain ⟨val, hval⟩ := Option.ne_none_iff_exists'.mp (h c List.mem_cons_self)
    obtain ⟨vals, hvals, hlen⟩ := ih fun d hd => h d (List.mem_cons_of_mem c hd)
    refine ⟨val :: vals, ?_, congrArg Nat.succ hlen⟩
    rw [List.mapM_cons, hval, hvals]
    rfl

theorem mapM_base64Val_of_mem {chars : List MojByte} {c : MojByte} (hc : c ∈ chars) (hval : base64Val c = none) :
    chars.mapM base64Val = none := by
  induction chars with
  | nil => cases hc
  | cons d chars ih =>
    rw [List.mapM_cons]
    cases List.mem_cons.mp hc with
    | inl heq =>
      rw [← heq, hval]
      rfl
    | inr hmem =>
      rw [ih hmem]
      cases base64Val d with
      | none => rfl
      | some val => rfl

/-- At most two characters are padding. -/
theorem length_trimPadding (chars : List MojByte) :
    chars.length - 2 ≤ (trimPadding chars).length ∧ (trimPadding chars).length ≤ chars.length := by
  have hone : ∀ cs : List MojByte, cs.length - 1 ≤ (if cs.getLast? = some 61 then cs.dropLast else cs).length ∧
      (if cs.getLast? = some 61 then cs.dropLast else cs).length ≤ cs.length := by
    intro cs
    split_ifs
    · rw [List.length_dropLast]
      omega
    · omega
  have hfirst := hone chars
  have hsecond := hone (if chars.getLast? = some 61 then chars.dropLast else chars)
  unfold trimPadding
  dsimp only
  omega

/-- Eight characters are six bytes, and the first four of them are a number. -/
theorem exists_readUInt32 {vals : List Nat} (hlen : 8 ≤ vals.length) (hgroup : vals.length % 4 ≠ 1) :
    ∃ bytes shardId, base64Chunks vals = .ok bytes ∧ readUInt32 bytes = .ok shardId := by
  match vals, hlen with
  | a :: b :: c :: d :: e :: f :: g :: h :: rest, _ =>
    have hrest : rest.length % 4 ≠ 1 := by
      simp only [List.length_cons] at hgroup
      omega
    obtain ⟨bytes, hbytes⟩ := exists_chunks rest hrest
    rw [base64Chunks, base64Chunks, hbytes]
    exact ⟨_, _, rfl, rfl⟩

theorem extractShard_of_not_names {id : MojString} (h : ¬NamesShard id) : extractShard (.string id) = .ok MainShardId :=
  if_neg h

theorem extractShard_of_names {id : MojString} (h : NamesShard id) :
    extractShard (.string id) = base64Decode id.chars >>= readUInt32 := if_pos h

theorem exists_extractShard {id : MojString} (h : NamesShard id) (hdecodes : Decodes id) :
    ∃ shardId, extractShard (.string id) = .ok shardId := by
  obtain ⟨vals, hvals, hlen⟩ := mapM_base64Val_of_forall hdecodes
  have htrim := length_trimPadding id.chars
  have hlong : id.chars.length = 16 := h.1
  obtain ⟨bytes, shardId, hbytes, hshard⟩ := @exists_readUInt32 vals (by omega) (by omega)
  refine ⟨shardId, ?_⟩
  have hdecode : base64Decode id.chars = .ok bytes := by
    rw [base64Decode, hvals]
    exact hbytes
  rw [extractShard_of_names h, hdecode, ok_bind, hshard]

theorem extractShard_of_not_decodes {id : MojString} (h : NamesShard id) (hdecodes : ¬Decodes id) :
    extractShard (.string id) = .error .invalidBase64Data := by
  obtain ⟨c, hc⟩ := not_forall.mp hdecodes
  obtain ⟨hmem, hnone⟩ := Classical.not_imp.mp hc
  have hdecode : base64Decode id.chars = .error .invalidBase64Data := by
    rw [base64Decode, mapM_base64Val_of_mem hmem (not_not.mp hnone)]
  rw [extractShard_of_names h, hdecode, error_bind]

end MojDbIdGenerator

namespace MojDb

/-! ## Agreement -/

/-- Every path takes the id to be of the shard: what a query makes of that is whether it passes over the object. -/
structure AllTake (st : MojDbShardEngine) (flags : Nat) (id : MojString) (shardId : MojDbShardId) : Prop where
  put : putShard flags .empty id = .ok shardId
  get : getShard id = .ok shardId
  del : delShard id = .ok shardId
  query : MojDbIsamQuery.checkShard st (.string id) = .ok (st.checkShard shardId)
  getById : MojDbSandwichQuery.getByIdShard id = .ok shardId

/-- The paths agree on a shard, the main one where none can be extracted. -/
def PathsAgree (st : MojDbShardEngine) (flags : Nat) (id : MojString) : Prop :=
  ∃ shardId, AllTake st flags id shardId ∧ (¬(NamesShard id ∧ Decodes id) → shardId = MainShardId)

/-- The ids that a put without flags refuses. -/
def Malformed (id : MojString) : Prop := isOwn id = false ∧ (id.chars.length > 16 ∨ maxLongId < id.chars)

theorem attachShardId_empty (id : MojString) :
    (Malformed id → attachShardId .empty id = .error .dbMalformedId) ∧
      (¬Malformed id → attachShardId .empty id = .ok id) := by
  unfold attachShardId Malformed
  cases hown : isOwn id with
  | true => exact ⟨fun h => absurd h.1 (by decide), fun _ => rfl⟩
  | false =>
    rw [if_neg Bool.false_ne_true]
    constructor
    · intro h
      rw [if_pos h.2]
    · intro h
      rw [if_neg fun hlong => h ⟨rfl, hlong⟩]
      rfl

theorem putShard_empty {flags : Nat} {id : MojString} (h : flags = MojDbFlagNone → ¬Malformed id) :
    putShard flags .empty id = extractShard (.string id) := by
  unfold putShard
  split_ifs with hflags
  · rw [(attachShardId_empty id).2 (h hflags), ok_bind]
  · rfl

/-- **The ids on which the paths agree**: a put does not refuse the id, and if it looks like one with a shard it can be
decoded. -/
theorem pathsAgree_iff (st : MojDbShardEngine) (flags : Nat) (id : MojString) :
    PathsAgree st flags id ↔ (flags = MojDbFlagNone → ¬Malformed id) ∧ (NamesShard id → Decodes id) := by
  constructor
  · intro ⟨shardId, htake, hmain⟩
    constructor
    · intro hflags hmalformed
      have hput := htake.put
      rw [putShard, if_pos hflags, (attachShardId_empty id).1 hmalformed] at hput
      cases hput
    · intro hnames
      by_contra hdecodes
      have hget := htake.get
      rw [getShard, extractShard_of_not_decodes hnames hdecodes] at hget
      cases hget
  · intro ⟨hput, hdecodes⟩
    have htake : ∀ shardId, extractShard (.string id) = .ok shardId → AllTake st flags id shardId := by
      intro shardId hshard
      refine ⟨(putShard_empty hput).trans hshard, hshard, hshard, ?_, hshard⟩
      rw [MojDbIsamQuery.checkShard, hshard]
    by_cases hnames : NamesShard id
    · obtain ⟨shardId, hshard⟩ := exists_extractShard hnames (hdecodes hnames)
      exact ⟨shardId, htake shardId hshard, fun h => absurd ⟨hnames, hdecodes hnames⟩ h⟩
    · exact ⟨MainShardId, htake MainShardId (extractShard_of_not_names hnames), fun _ => rfl⟩

/-- Sixteen times `-`: a query takes it to be of the main shard, and a put fails. -/
theorem not_pathsAgree_dashes : ¬∀ (st : MojDbShardEngine) (flags : Nat) (id : MojString), PathsAgree st flags id := by
  intro h
  obtain ⟨shardId, htake, -⟩ := h .init MojDbFlagNone ⟨List.replicate 16 45, by decide⟩
  have hput := htake.put
  have herror : putShard MojDbFlagNone .empty ⟨List.replicate 16 45, by decide⟩ = .error .invalidBase64Data := by
    decide
  rw [herror] at hput
  cases hput

end MojDb

end Db8
