import Db8.Core.MojErr
import Db8.Core.MojObjectWriter
import Db8.Lib.Fallible

/-!
# Db.MojDbIdGenerator

The shard an object belongs to is read off its id: `extractShard`, with the base64 coding it
rests on. Ids with the same bytes are in the same shard (`extractShard_congr`).
-/

namespace Db8

open Lib

abbrev MojDbShardId := Nat

namespace MojDbIdGenerator

def MainShardId : MojDbShardId := 0

def LongIdChars : Nat := 16

/-- The table of `MojBase64Decode`: `+`, digits, capitals, `_`, small letters, in byte order. -/
def base64Val (c : MojByte) : Option Nat :=
  let n := c.val
  if n = 43 then some 0
  else if 48 ≤ n ∧ n ≤ 57 then some (n - 48 + 1)
  else if 65 ≤ n ∧ n ≤ 90 then some (n - 65 + 11)
  else if n = 95 then some 37
  else if 97 ≤ n ∧ n ≤ 122 then some (n - 97 + 38)
  else none

/-- Up to two `=` (61) at the end are padding. -/
def trimPadding (chars : List MojByte) : List MojByte :=
  let trim := fun cs : List MojByte => if cs.getLast? = some 61 then cs.dropLast else cs
  trim (trim chars)

/-- Four characters make three bytes; a remainder of two or three makes one or two. -/
def base64Chunks : List Nat → Except MojErr (List MojByte)
  | a :: b :: c :: d :: rest => do
    let chunk := a * 2 ^ 18 + b * 2 ^ 12 + c * 2 ^ 6 + d
    let bytes ← base64Chunks rest
    return bigEndian 256 3 chunk ++ bytes
  | [a, b, c] => .ok (bigEndian 256 2 ((a * 2 ^ 18 + b * 2 ^ 12 + c * 2 ^ 6) / 2 ^ 8))
  | [a, b] => .ok (bigEndian 256 1 ((a * 2 ^ 18 + b * 2 ^ 12) / 2 ^ 16))
  | [_] => .error .invalidBase64Data
  | [] => .ok []

def base64Decode (chars : List MojByte) : Except MojErr (List MojByte) :=
  match (trimPadding chars).mapM base64Val with
  | none => .error .invalidBase64Data
  | some vals => base64Chunks vals

def base64Char (n : Fin 64) : MojByte :=
  if n.val = 0 then 43
  else if n.val ≤ 10 then Fin.ofNat 256 (n.val - 1 + 48)
  else if n.val ≤ 36 then Fin.ofNat 256 (n.val - 11 + 65)
  else if n.val = 37 then 95
  else Fin.ofNat 256 (n.val - 38 + 97)

/-- `MojBase64Encode` without the padding. -/
def base64Encode : List MojByte → List MojByte
  | a :: b :: c :: rest =>
    (bigEndian 64 4 (a.val * 2 ^ 16 + b.val * 2 ^ 8 + c.val)).map base64Char ++ base64Encode rest
  | [a, b] => ((bigEndian 64 4 (a.val * 2 ^ 16 + b.val * 2 ^ 8)).take 3).map base64Char
  | [a] => ((bigEndian 64 4 (a.val * 2 ^ 16)).take 2).map base64Char
  | [] => []

theorem base64Char_ne_zero (n : Fin 64) : base64Char n ≠ 0 := by
  decide +revert

theorem zero_notMem_base64Encode (bytes : List MojByte) : 0 ∉ base64Encode bytes := by
  have hmap : ∀ digits : List (Fin 64), 0 ∉ digits.map base64Char := by
    intro digits h
    obtain ⟨n, -, hn⟩ := List.mem_map.mp h
    exact base64Char_ne_zero n hn
  fun_induction base64Encode bytes with
  | case1 a b c rest ih =>
    intro h
    cases List.mem_append.mp h with
    | inl h => exact hmap _ h
    | inr h => exact ih h
  | case2 a b => exact hmap _
  | case3 a => exact hmap _
  | case4 => exact List.not_mem_nil

/-- `MojDataReader::readUInt32`. -/
def readUInt32 : List MojByte → Except MojErr Nat
  | a :: b :: c :: d :: _ => .ok (a.val * 2 ^ 24 + b.val * 2 ^ 16 + c.val * 2 ^ 8 + d.val)
  | _ => .error .unexpectedEof

/-- Only a long string id that does not begin with `_` (95) names a shard, in its first four bytes. -/
def extractShard (id : MojObject) : Except MojErr MojDbShardId :=
  match id with
  | .string s =>
    if s.chars.length = LongIdChars ∧ s.chars.head? ≠ some 95 then do
      let idVec ← base64Decode s.chars
      readUInt32 idVec
    else .ok MainShardId
  | _ => .ok MainShardId

theorem extractShard_written (a : MojObject) : extractShard a.written = extractShard a := by
  cases a <;> rfl

theorem extractShard_congr {a b : MojObject} (h : a.toBytes = b.toBytes) :
    extractShard a = extractShard b := by
  rw [← MojObject.written_toBytes a, ← MojObject.written_toBytes b] at h
  have hw : a.written = b.written :=
    (MojObject.toBytes_append_inj (MojObject.isDefined_written a) (MojObject.isDefined_written b)
      (s := []) (t := []) (by rw [h])).1
  rw [← extractShard_written a, ← extractShard_written b, hw]

end MojDbIdGenerator

end Db8
