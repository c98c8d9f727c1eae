import Db8.Db.MojBase64
import Db8.Db.MojDbShardEngine

/-!
# Db.MojDbShardIds

Shard ids: how a new one is found, how it is written as text, and how it is put into the id of an object.

* `allocateId`         — 127 prefixes before a hash of the device's text, then before the hash of a longer text.
* `allocateId_iff`     — it ends when one of the ids it tries is free.
* `id`, `ofText`       — the ids of new objects, for a shard as a number and as text.
* `extractShard_id`    — the shard comes back out of the id.
* `shardIds_of_run`    — new shard ids are new in every run where no request that has written a shard aborts.
-/

namespace Db8

open Lib

namespace MojDbIdGenerator

/-- The time in units of four microseconds, and fourteen random bits. -/
def baseId (microsecs randNum : UInt64) : UInt64 := ((microsecs &&& 0xFFFFFFFFFFFFC) <<< 12) + (randNum &&& 0x3FFF)

def id (shardId : MojDbShardId) (microsecs randNum : UInt64) : MojString :=
  let buf := bigEndian 256 8 (baseId microsecs randNum).toNat
  let buf := if shardId ≠ MainShardId then bigEndian 256 4 shardId ++ buf else buf
  ⟨base64Encode buf, zero_notMem_base64Encode buf⟩

/-- The bytes of a decoded shard id, as many as there are, in 32 bits. -/
def shardOfBytes (shardIdVector : List MojByte) : Nat :=
  shardIdVector.foldl (fun shard byte => (shard * 256 + byte.val) % 2 ^ 32) 0

/-- `id` of a shard id that is text. -/
def ofText (shardId : MojString) (microsecs randNum : UInt64) : Except MojErr MojString :=
  if shardId.isEmpty then .ok (id MainShardId microsecs randNum)
  else do
    let shardIdVector ← decodeString shardId.chars
    return id (shardOfBytes shardIdVector) microsecs randNum

/-! ## The shard of a new id -/

theorem base64Encode_eq_encode (src : List MojByte) : base64Encode src = MojBase64Encode src false :=
  (List.append_nil _).symm

theorem base64Decode_encode (src : List MojByte) : base64Decode (base64Encode src) = .ok src := by
  unfold base64Decode
  have htrim : trimPadding (base64Encode src) = (sixes src).map base64Char := by
    rw [base64Encode_eq]
    simpa using trimPadding_append (pad_notMem (sixes src)) (Nat.zero_le 2)
  rw [htrim, mapM_base64Val]
  exact base64Chunks_sixes src

theorem length_base64Encode (src : List MojByte) : (base64Encode src).length = (4 * src.length + 2) / 3 := by
  rw [base64Encode_eq, List.length_map, length_sixes]

/-- The four bytes of a number are read as the number. -/
theorem readUInt32_bigEndian {n : Nat} (hn : n < 2 ^ 32) (rest : List MojByte) :
    readUInt32 (bigEndian 256 4 n ++ rest) = .ok n := by
  simp only [bigEndian, List.cons_append, List.nil_append, readUInt32, Fin.val_ofNat, Nat.reducePow, Except.ok.injEq]
  omega

theorem bigEndian_readUInt32 {bytes : List MojByte} (hlen : bytes.length = 4) :
    ∃ n < 2 ^ 32, readUInt32 bytes = .ok n ∧ bigEndian 256 4 n = bytes := by
  match bytes, hlen with
  | [a, b, c, d], _ =>
    have ha := a.isLt
    have hb := b.isLt
    have hc := c.isLt
    have hd := d.isLt
    refine ⟨_, ?_, rfl, ?_⟩
    · omega
    · simp only [bigEndian, List.cons.injEq, Fin.ext_iff, Fin.val_ofNat, Nat.reducePow, and_true]
      omega

theorem base64Char_ne_underscore {n : Fin 64} (hn : n.val < 37) : base64Char n ≠ 95 := by
  revert n
  decide

/-- An id that begins with a byte below 128 does not begin with `_`. -/
theorem head_base64Encode {n : Nat} (hn : n < 2 ^ 31) (rest : List MojByte) :
    (base64Encode (bigEndian 256 4 n ++ rest)).head? ≠ some 95 := by
  have hfirst : (base64Encode (bigEndian 256 4 n ++ rest)).head? = some (base64Char (Fin.ofNat 64 (n / 2 ^ 26))) := by
    simp only [bigEndian, List.cons_append, List.nil_append, base64Encode, List.map_cons, List.head?_cons,
      Option.some.injEq, Fin.val_ofNat, Nat.reducePow]
    congr 1
    simp only [Fin.ext_iff, Fin.val_ofNat]
    omega
  rw [hfirst]
  intro h
  refine base64Char_ne_underscore ?_ (Option.some.inj h)
  rw [Fin.val_ofNat]
  omega

/-- **The shard of a new id** is the one it was made for. -/
theorem extractShard_id {shardId : Nat} (hlt : shardId < 2 ^ 31) (microsecs randNum : UInt64) :
    extractShard (.string (id shardId microsecs randNum)) = .ok shardId := by
  unfold extractShard id
  dsimp only
  by_cases hmain : shardId = MainShardId
  · have hlen : ¬(base64Encode (bigEndian 256 8 (baseId microsecs randNum).toNat)).length = LongIdChars := by
      rw [length_base64Encode, bigEndian_length]
      decide
    rw [if_neg (not_not.mpr hmain), if_neg fun h => hlen h.1, hmain]
  · have hlen : (base64Encode (bigEndian 256 4 shardId ++ bigEndian 256 8 (baseId microsecs randNum).toNat)).length =
        LongIdChars := by
      rw [length_base64Encode, List.length_append, bigEndian_length, bigEndian_length]
      rfl
    rw [if_pos hmain, if_pos ⟨hlen, head_base64Encode hlt _⟩, base64Decode_encode, ok_bind]
    exact readUInt32_bigEndian (by omega) _

/-- The same id, for the shard as text. -/
theorem ofText_convertId {shardId : Nat} (hlt : shardId < 2 ^ 32) (microsecs randNum : UInt64) :
    ofText (MojDbShardEngine.convertId shardId) microsecs randNum = .ok (id shardId microsecs randNum) := by
  have hnonempty : ¬(MojDbShardEngine.convertId shardId).isEmpty = true := by
    intro h
    have hnil : base64Encode (bigEndian 256 4 shardId) = [] := List.isEmpty_iff.mp h
    have hlen := length_base64Encode (bigEndian 256 4 shardId)
    rw [hnil, bigEndian_length] at hlen
    exact absurd hlen (by decide)
  have hshard : shardOfBytes (bigEndian 256 4 shardId) = shardId := by
    simp only [shardOfBytes, bigEndian, List.foldl_cons, List.foldl_nil, Fin.val_ofNat, Nat.reducePow]
    omega
  have hdecode : decodeString (MojDbShardEngine.convertId shardId).chars = .ok (bigEndian 256 4 shardId) := by
    change decodeString (base64Encode _) = _
    rw [base64Encode_eq_encode, decodeString_encode]
  rw [ofText, if_neg hnonempty, hdecode, ok_bind, hshard]
  rfl

end MojDbIdGenerator

namespace MojDbShardEngine

open MojDbIdGenerator

/-! ## Numbers and texts -/

/-- `convertId` of a text. -/
def convertIdBase64 (i_id_base64 : MojString) : Except MojErr MojDbShardId := do
  let idVec ← decodeString i_id_base64.chars
  readUInt32 idVec

theorem convertIdBase64_convertId {shardId : Nat} (hlt : shardId < 2 ^ 32) :
    convertIdBase64 (convertId shardId) = .ok shardId := by
  have hdecode : decodeString (convertId shardId).chars = .ok (bigEndian 256 4 shardId) := by
    change decodeString (base64Encode _) = _
    rw [base64Encode_eq_encode, decodeString_encode]
  rw [convertIdBase64, hdecode, ok_bind, ← List.append_nil (bigEndian 256 4 shardId)]
  exact readUInt32_bigEndian hlt []

/-! ## New shard ids -/

variable (crc32 : List MojByte → Nat)

/-- `crc32` is `boost::crc_32_type` over the bytes. -/
def computeId (mediaUuid : MojString) : Nat := Nat.land (crc32 mediaUuid.chars) 0xFFFFFF

/-- `%x`. -/
def hexText (n : Nat) : List MojByte := (Nat.toDigits 16 n).map ch

/-- `"%s%x"`. -/
def modifiedUuid (deviceUuid : MojString) (suffix : Nat) : MojString :=
  MojDbKindIdList.assign (deviceUuid.chars ++ hexText suffix)

def idOf (calc_id prefix_ : Nat) : Nat := Nat.lor calc_id (prefix_ * 0x01000000)

/-- The loop of `allocateId`, as often as `fuel` says. -/
def allocateLoop (st : MojDbShardEngine) (deviceUuid : MojString) : Nat → Nat → Nat → Nat → Option MojDbShardId
  | 0, _, _, _ => none
  | fuel + 1, calc_id, prefix_, suffix =>
    let id := idOf calc_id prefix_
    if st.isIdExist id then
      if prefix_ + 1 = 128 then
        let suffix := (suffix + 1) % 2 ^ 32
        allocateLoop st deviceUuid fuel (computeId crc32 (modifiedUuid deviceUuid suffix)) 1 suffix
      else allocateLoop st deviceUuid fuel calc_id (prefix_ + 1) suffix
    else some id

def allocateId (st : MojDbShardEngine) (deviceUuid : MojString) (fuel : Nat) : Option MojDbShardId :=
  allocateLoop crc32 st deviceUuid fuel (computeId crc32 deviceUuid) 1 1

/-- A hash that `allocateId` comes to. -/
def Hash (deviceUuid : MojString) (calc_id : Nat) : Prop :=
  calc_id = computeId crc32 deviceUuid ∨ ∃ suffix < 2 ^ 32, calc_id = computeId crc32 (modifiedUuid deviceUuid suffix)

theorem Hash.lt {deviceUuid : MojString} {calc_id : Nat} (h : Hash crc32 deviceUuid calc_id) : calc_id < 2 ^ 24 := by
  have hlt : ∀ n, Nat.land n 0xFFFFFF < 2 ^ 24 := fun n => Nat.and_lt_two_pow n (by decide)
  cases h with
  | inl h => exact h ▸ hlt _
  | inr h =>
    obtain ⟨suffix, -, h⟩ := h
    exact h ▸ hlt _

/-- An id that `allocateId` tries. -/
def Tried (deviceUuid : MojString) (shardId : Nat) : Prop :=
  ∃ calc_id prefix_, Hash crc32 deviceUuid calc_id ∧ 1 ≤ prefix_ ∧ prefix_ ≤ 127 ∧ shardId = idOf calc_id prefix_

theorem Tried.bounds {deviceUuid : MojString} {shardId : Nat} (h : Tried crc32 deviceUuid shardId) :
    0 < shardId ∧ shardId < 2 ^ 31 := by
  obtain ⟨calc_id, prefix_, hhash, hlow, hhigh, rfl⟩ := h
  have hlt := hhash.lt
  constructor
  · have hle : prefix_ * 0x01000000 ≤ idOf calc_id prefix_ := Nat.right_le_or
    exact Nat.lt_of_lt_of_le (by omega) hle
  · exact Nat.or_lt_two_pow (by omega) (by omega)

variable {crc32} {st : MojDbShardEngine} {deviceUuid : MojString}

theorem allocateLoop_tried {fuel calc_id prefix_ suffix : Nat} (hhash : Hash crc32 deviceUuid calc_id) (hlow : 1 ≤ prefix_)
    (hhigh : prefix_ ≤ 127) {id : MojDbShardId} (h : st.allocateLoop crc32 deviceUuid fuel calc_id prefix_ suffix = some id) :
    Tried crc32 deviceUuid id ∧ st.isIdExist id = false := by
  induction fuel generalizing calc_id prefix_ suffix with
  | zero => cases h
  | succ fuel ih =>
    rw [allocateLoop] at h
    dsimp only at h
    split_ifs at h with hexist hnext
    · exact ih (.inr ⟨_, Nat.mod_lt _ (by decide), rfl⟩) (Nat.le_refl 1) (by decide) h
    · exact ih hhash (by omega) (by omega) h
    · obtain rfl := Option.some.inj h
      exact ⟨⟨calc_id, prefix_, hhash, hlow, hhigh, rfl⟩, Bool.eq_false_iff.mpr hexist⟩

/-- One of the prefixes from `prefix_` on makes a free id. -/
def FreeFrom (st : MojDbShardEngine) (calc_id prefix_ : Nat) : Prop :=
  ∃ p, prefix_ ≤ p ∧ p ≤ 127 ∧ st.isIdExist (idOf calc_id p) = false

theorem allocateLoop_of_free {calc_id prefix_ suffix : Nat} (h : FreeFrom st calc_id prefix_) :
    ∃ fuel id, st.allocateLoop crc32 deviceUuid fuel calc_id prefix_ suffix = some id := by
  obtain ⟨p, hp, hmax, hfree⟩ := h
  induction hsteps : p - prefix_ generalizing prefix_ with
  | zero =>
    obtain rfl : p = prefix_ := by omega
    refine ⟨1, idOf calc_id p, ?_⟩
    rw [allocateLoop, if_neg (Bool.eq_false_iff.mp hfree)]
  | succ steps ih =>
    obtain ⟨fuel, id, hid⟩ := ih (by omega : prefix_ + 1 ≤ p) (by omega)
    by_cases hexist : st.isIdExist (idOf calc_id prefix_) = true
    · refine ⟨fuel + 1, id, ?_⟩
      rw [allocateLoop, if_pos hexist, if_neg (by omega)]
      exact hid
    · refine ⟨1, idOf calc_id prefix_, ?_⟩
      rw [allocateLoop, if_neg hexist]

/-- When no prefix makes a free id, the loop goes on with the next text. -/
theorem allocateLoop_next {calc_id prefix_ suffix : Nat} (hhigh : prefix_ ≤ 127) (h : ¬FreeFrom st calc_id prefix_)
    {fuel : Nat} {id : MojDbShardId}
    (hid : st.allocateLoop crc32 deviceUuid fuel (computeId crc32 (modifiedUuid deviceUuid ((suffix + 1) % 2 ^ 32))) 1
      ((suffix + 1) % 2 ^ 32) = some id) :
    ∃ fuel', st.allocateLoop crc32 deviceUuid fuel' calc_id prefix_ suffix = some id := by
  have hexist : ∀ p, prefix_ ≤ p → p ≤ 127 → st.isIdExist (idOf calc_id p) = true := by
    intro p hp hmax
    by_contra hfree
    exact h ⟨p, hp, hmax, Bool.eq_false_iff.mpr hfree⟩
  induction hsteps : 127 - prefix_ generalizing prefix_ with
  | zero =>
    obtain rfl : prefix_ = 127 := by omega
    refine ⟨fuel + 1, ?_⟩
    rw [allocateLoop, if_pos (hexist 127 (Nat.le_refl _) (Nat.le_refl _)), if_pos rfl]
    exact hid
  | succ steps ih =>
    have hnext : ¬FreeFrom st calc_id (prefix_ + 1) := by
      intro ⟨p, hp, hmax, hfree⟩
      exact h ⟨p, by omega, hmax, hfree⟩
    obtain ⟨fuel', hfuel'⟩ :=
      ih (by omega : prefix_ + 1 ≤ 127) hnext (fun p hp => hexist p (by omega)) (by omega)
    refine ⟨fuel' + 1, ?_⟩
    rw [allocateLoop, if_pos (hexist prefix_ (Nat.le_refl _) hhigh), if_neg (by omega)]
    exact hfuel'

/-- The text of each suffix has its turn. -/
theorem allocateLoop_of_suffix (steps : Nat) {calc_id suffix : Nat}
    (h : FreeFrom st (computeId crc32 (modifiedUuid deviceUuid ((suffix + 1 + steps) % 2 ^ 32))) 1) :
    ∃ fuel id, st.allocateLoop crc32 deviceUuid fuel calc_id 1 suffix = some id := by
  induction steps generalizing calc_id suffix with
  | zero =>
    by_cases hfree : FreeFrom st calc_id 1
    · exact allocateLoop_of_free hfree
    · obtain ⟨fuel, id, hid⟩ := @allocateLoop_of_free crc32 st deviceUuid _ 1 ((suffix + 1) % 2 ^ 32) h
      obtain ⟨fuel', hfuel'⟩ := allocateLoop_next (by decide) hfree hid
      exact ⟨fuel', id, hfuel'⟩
  | succ steps ih =>
    by_cases hfree : FreeFrom st calc_id 1
    · exact allocateLoop_of_free hfree
    · have hmod : ((suffix + 1) % 2 ^ 32 + 1 + steps) % 2 ^ 32 = (suffix + 1 + (steps + 1)) % 2 ^ 32 := by omega
      obtain ⟨fuel, id, hid⟩ :=
        @ih (computeId crc32 (modifiedUuid deviceUuid ((suffix + 1) % 2 ^ 32))) ((suffix + 1) % 2 ^ 32) (hmod ▸ h)
      obtain ⟨fuel', hfuel'⟩ := allocateLoop_next (by decide) hfree hid
      exact ⟨fuel', id, hfuel'⟩

/-- **The loop ends when one of the ids it tries is free.** -/
theorem allocateId_iff :
    (∃ fuel id, st.allocateId crc32 deviceUuid fuel = some id) ↔ ∃ id, Tried crc32 deviceUuid id ∧ st.isIdExist id = false := by
  constructor
  · intro ⟨fuel, shardId, hid⟩
    exact ⟨shardId, allocateLoop_tried (.inl rfl) (Nat.le_refl 1) (by decide) hid⟩
  · intro ⟨shardId, ⟨calc_id, prefix_, hhash, hlow, hhigh, hid⟩, hfree⟩
    have hfrom : FreeFrom st calc_id 1 := ⟨prefix_, hlow, hhigh, hid ▸ hfree⟩
    cases hhash with
    | inl hfirst =>
      rw [hfirst] at hfrom
      exact allocateLoop_of_free hfrom
    | inr hlater =>
      obtain ⟨suffix, hsuffix, hcalc⟩ := hlater
      have hmod : (1 + 1 + (suffix + 2 ^ 32 - 2)) % 2 ^ 32 = suffix := by omega
      rw [hcalc, ← hmod] at hfrom
      exact allocateLoop_of_suffix _ hfrom

/-! ## What is asked of shard ids -/

structure ShardIds (crc32 : List MojByte → Nat) (st : MojDbShardEngine) : Prop where
  /-- A new shard id is found when one of those that are tried is not stored. -/
  found : ∀ deviceUuid, (∃ fuel id, st.allocateId crc32 deviceUuid fuel = some id) ↔
    ∃ id, Tried crc32 deviceUuid id ∧ ∀ o ∈ st.view, o.shardId ≠ id
  fresh : ∀ deviceUuid fuel id, st.allocateId crc32 deviceUuid fuel = some id → id ≠ 0 ∧ ∀ o ∈ st.view, o.shardId ≠ id
  extracted : ∀ deviceUuid fuel id, st.allocateId crc32 deviceUuid fuel = some id → ∀ microsecs randNum,
    extractShard (.string (MojDbIdGenerator.id id microsecs randNum)) = .ok id ∧
      ofText (convertId id) microsecs randNum = .ok (MojDbIdGenerator.id id microsecs randNum)
  main : ∀ microsecs randNum, extractShard (.string (MojDbIdGenerator.id MainShardId microsecs randNum)) = .ok MainShardId ∧
    ofText .empty microsecs randNum = .ok (MojDbIdGenerator.id MainShardId microsecs randNum)
  converted : ∀ id < 2 ^ 32, convertIdBase64 (convertId id) = .ok id
  converted_text : ∀ text : MojString, Canonical false text.chars → text.chars.length = 6 →
    ∃ id < 2 ^ 32, convertIdBase64 text = .ok id ∧ convertId id = text

theorem convertId_convertIdBase64 {text : MojString} (h : Canonical false text.chars) (hlen : text.chars.length = 6) :
    ∃ shardId < 2 ^ 32, convertIdBase64 text = .ok shardId ∧ convertId shardId = text := by
  obtain ⟨bytes, hdecode, hencode⟩ := exists_bytes_of_canonical h
  have hfour : bytes.length = 4 := by
    rw [← hencode, length_base64Encode] at hlen
    omega
  obtain ⟨shardId, hlt, hread, hbytes⟩ := bigEndian_readUInt32 hfour
  refine ⟨shardId, hlt, ?_, ?_⟩
  · rw [convertIdBase64, hdecode, ok_bind, hread]
  · rw [convertId]
    congr 1
    rw [hbytes, hencode]

/-- What the cache has is what is stored. -/
theorem Inv.shardIds (h : Inv st) : ShardIds crc32 st where
  found deviceUuid := by
    have hfree : ∀ shardId, st.isIdExist shardId = false ↔ ∀ o ∈ st.view, o.shardId ≠ shardId := by
      intro shardId
      rw [Bool.eq_false_iff, Ne, h.agrees.isIdExist]
      simp
    rw [allocateId_iff]
    exact exists_congr fun shardId => and_congr_right fun _ => hfree shardId
  fresh deviceUuid fuel shardId hid := by
    obtain ⟨htried, hfree⟩ := allocateLoop_tried (.inl rfl) (Nat.le_refl 1) (by decide) hid
    refine ⟨Nat.pos_iff_ne_zero.mp htried.bounds.1, fun o ho heq => ?_⟩
    have hexist := (h.agrees.isIdExist shardId).mpr ⟨o, ho, heq⟩
    exact absurd hexist (Bool.eq_false_iff.mp hfree)
  extracted deviceUuid fuel shardId hid microsecs randNum := by
    obtain ⟨htried, -⟩ := allocateLoop_tried (.inl rfl) (Nat.le_refl 1) (by decide) hid
    have hlt := htried.bounds.2
    exact ⟨extractShard_id hlt microsecs randNum, ofText_convertId (by omega) microsecs randNum⟩
  main microsecs randNum := ⟨extractShard_id (by decide) microsecs randNum, rfl⟩
  converted shardId hlt := convertIdBase64_convertId hlt
  converted_text text := convertId_convertIdBase64

theorem shardIds_of_run (crc32 : List MojByte → Nat) {acts : List Action} (hsafe : Along step Safe init acts) : ShardIds crc32 (run step init acts) :=
  (Along.invariant Inv (fun _ a h ha => inv_step h a ha) inv_init hsafe).shardIds

/-- `boost::crc_32_type` of one more byte. -/
def crcByte (crc : Nat) (byte : MojByte) : Nat :=
  let shift := fun crc : Nat => if crc % 2 = 1 then Nat.xor (crc / 2) 0xEDB88320 else crc / 2
  shift (shift (shift (shift (shift (shift (shift (shift (Nat.xor crc byte.val))))))))

/-- The CRC that is used. -/
def bitwiseCrc32 (bytes : List MojByte) : Nat := Nat.xor (bytes.foldl crcByte 0xFFFFFFFF) 0xFFFFFFFF

/-- The check value of this CRC, of the digits from 1 to 9. -/
example : bitwiseCrc32 [49, 50, 51, 52, 53, 54, 55, 56, 57] = 0xCBF43926 := by decide +kernel

/-- The text `a`, and a shard with the id that is tried first for it. -/
def aDevice : MojString := MojDbKindIdList.assign [97]

def itsShard : MojDbShardInfo := { aShard with id := idOf (computeId bitwiseCrc32 aDevice) 1 }

theorem shardIds_of_run_put :
    Along step Safe init [.put itsShard 1 false] ∧ ShardIds bitwiseCrc32 (run step init [.put itsShard 1 false]) := by
  have hsafe : Along step Safe init [.put itsShard 1 false] :=
    ⟨Or.inr fun o ho => (List.not_mem_nil ho).elim, trivial⟩
  exact ⟨hsafe, shardIds_of_run bitwiseCrc32 hsafe⟩

/-- The request in which the shard was removed aborts: the shard is stored, and its id is free for a new one. -/
theorem not_shardIds_of_abort : ¬∀ acts : List Action, ShardIds bitwiseCrc32 (run step init acts) := by
  intro h
  have hfresh := (h [.put itsShard 1 false, .begin, .removeShardInfo itsShard.id none, .finish false]).fresh aDevice 1
    itsShard.id (by decide +kernel)
  have hstored : objToPut itsShard 1 ∈
      (run step init [.put itsShard 1 false, .begin, .removeShardInfo itsShard.id none, .finish false]).view := by
    decide +kernel
  exact hfresh.2 _ hstored (objToPut_shardId itsShard 1)

end MojDbShardEngine

end Db8
