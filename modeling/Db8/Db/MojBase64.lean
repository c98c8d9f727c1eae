import Db8.Db.MojDbIdGenerator

/-!
# Db.MojBase64

The base64 coding of ids and page keys, with its padding and the size it reports.

* `MojBase64Encode`, `MojBase64Decode` — the functions of the source; `base64Encode` and `base64Chunks` are their loops.
* `sixes`            — the values of the characters of an encoding.
* `Canonical`        — the padding fills up the last group, and the bits that stand for no byte are zero.
* `base64_coding`    — decoding undoes encoding, canonical texts are encodings, and the order of the bytes is kept.
-/

namespace Db8

open Lib

namespace MojDbIdGenerator

/-- `MojBase64DecodedSizeMax`. -/
def MojBase64DecodedSizeMax (encodedLen : Nat) : Nat := (encodedLen + 3) / 4 * 3

/-- What `=` fills up after so many characters. -/
def padding (pad : Bool) (len : Nat) : List MojByte := if pad then List.replicate ((4 - len % 4) % 4) 61 else []

def MojBase64Encode (src : List MojByte) (pad : Bool) : List MojByte :=
  base64Encode src ++ padding pad (base64Encode src).length

/-- The bytes in the buffer and `sizeOut`, which counts back from the size of the whole text. -/
def MojBase64Decode (src : List MojByte) : Except MojErr (List MojByte × Nat) := do
  let dest ← base64Decode src
  let sizeOut := MojBase64DecodedSizeMax src.length
  match (trimPadding src).length % 4 with
  | 2 => return (dest, sizeOut - 2)
  | 3 => return (dest, sizeOut - 1)
  | _ => return (dest, sizeOut)

/-- `MojString::base64Decode`: what was not written is zero. -/
def decodeString (src : List MojByte) : Except MojErr (List MojByte) := do
  let (dest, sizeOut) ← MojBase64Decode src
  return dest ++ List.replicate (sizeOut - dest.length) 0

/-! ## Characters -/

theorem base64Val_base64Char (n : Fin 64) : base64Val (base64Char n) = some n.val := by
  decide +revert

theorem base64Char_ne_pad (n : Fin 64) : base64Char n ≠ 61 := by
  decide +revert

/-- The alphabet is in byte order. -/
theorem base64Char_strictMono : StrictMono base64Char := by
  have h : ∀ m n : Fin 64, m < n → base64Char m < base64Char n := by decide +kernel
  exact fun m n hmn => h m n hmn

theorem mapM_base64Val (vals : List (Fin 64)) : (vals.map base64Char).mapM base64Val = some (vals.map Fin.val) := by
  induction vals with
  | nil => rfl
  | cons n vals ih => simp [base64Val_base64Char, ih]

/-- Two trimmed characters are all the padding there is. -/
theorem trimPadding_append {body : List MojByte} (hbody : 61 ∉ body) {k : Nat} (hk : k ≤ 2) :
    trimPadding (body ++ List.replicate k 61) = body := by
  have hlast : body.getLast? ≠ some 61 := fun h => hbody (List.mem_of_getLast? h)
  match k, hk with
  | 0, _ => simp [trimPadding, hlast]
  | 1, _ => simp [trimPadding, hlast]
  | 2, _ =>
    have hsplit : body ++ List.replicate 2 61 = body ++ [61] ++ [61] := by simp
    rw [hsplit, trimPadding]
    simp [-List.append_assoc]

theorem pad_notMem (vals : List (Fin 64)) : 61 ∉ vals.map base64Char := by
  intro h
  obtain ⟨n, -, hn⟩ := List.mem_map.mp h
  exact base64Char_ne_pad n hn

/-! ## The characters of an encoding -/

instance neZero_sixtyFour : NeZero (64 : Nat) := ⟨by decide⟩

/-- Three bytes make four characters; a remainder of one or two makes two or three. -/
def sixes : List MojByte → List (Fin 64)
  | a :: b :: c :: rest => bigEndian 64 4 (a.val * 2 ^ 16 + b.val * 2 ^ 8 + c.val) ++ sixes rest
  | [a, b] => (bigEndian 64 4 (a.val * 2 ^ 16 + b.val * 2 ^ 8)).take 3
  | [a] => (bigEndian 64 4 (a.val * 2 ^ 16)).take 2
  | [] => []

theorem base64Encode_eq (src : List MojByte) : base64Encode src = (sixes src).map base64Char := by
  fun_induction base64Encode src with
  | case1 a b c rest ih => rw [ih, sixes, List.map_append]
  | case2 a b => rfl
  | case3 a => rfl
  | case4 => rfl

/-- The six-bit values of the characters one by one. -/
theorem digits_eq (n : Nat) : bigEndian 64 4 n =
    [Fin.ofNat 64 (n / 262144), Fin.ofNat 64 (n / 4096), Fin.ofNat 64 (n / 64), Fin.ofNat 64 n] := by
  simp [bigEndian]

theorem bytes_eq {n a b c : Nat} (hb : b < 256) (hc : c < 256) (hn : n = a * 2 ^ 16 + b * 2 ^ 8 + c) :
    bigEndian 256 3 n = [Fin.ofNat 256 a, Fin.ofNat 256 b, Fin.ofNat 256 c] := by
  subst hn
  simp only [bigEndian, List.cons.injEq, Fin.ext_iff, Fin.val_ofNat, Nat.reducePow, and_true]
  omega

theorem length_sixes (src : List MojByte) : (sixes src).length = (4 * src.length + 2) / 3 := by
  fun_induction sixes src with
  | case1 a b c rest ih =>
    simp only [List.length_append, bigEndian_length, ih, List.length_cons]
    omega
  | case2 a b => simp
  | case3 a => simp
  | case4 => rfl

/-- Chunk by chunk, the characters of an encoding are read back as the bytes. -/
theorem base64Chunks_sixes (src : List MojByte) : base64Chunks ((sixes src).map Fin.val) = .ok src := by
  fun_induction sixes src with
  | case1 a b c rest ih =>
    have ha := a.isLt
    have hb := b.isLt
    have hc := c.isLt
    rw [digits_eq, List.map_append]
    simp only [List.map_cons, List.map_nil, List.cons_append, List.nil_append, Fin.val_ofNat, base64Chunks, ih, ok_bind]
    rw [@bytes_eq _ a.val b.val c.val hb hc (by omega)]
    simp [pure, Except.pure]
  | case2 a b =>
    have ha := a.isLt
    have hb := b.isLt
    rw [digits_eq]
    simp only [List.take, List.map_cons, List.map_nil, Fin.val_ofNat, base64Chunks, bigEndian, Except.ok.injEq,
      List.cons.injEq, Fin.ext_iff, Nat.reducePow, and_true]
    omega
  | case3 a =>
    have ha := a.isLt
    rw [digits_eq]
    simp only [List.take, List.map_cons, List.map_nil, Fin.val_ofNat, base64Chunks, bigEndian, Except.ok.injEq,
      List.cons.injEq, Fin.ext_iff, Nat.reducePow, and_true]
    omega
  | case4 => rfl

/-- Encoded with or without the padding, the bytes come back, and their number is reported. -/
theorem decode_encode (src : List MojByte) (pad : Bool) :
    MojBase64Decode (MojBase64Encode src pad) = .ok (src, src.length) := by
  have hlen := length_sixes src
  have htrim : trimPadding (MojBase64Encode src pad) = (sixes src).map base64Char := by
    rw [MojBase64Encode, base64Encode_eq, List.length_map]
    cases pad with
    | false => exact trimPadding_append (pad_notMem _) (Nat.zero_le 2)
    | true => exact trimPadding_append (pad_notMem _) (by omega)
  have hdecode : base64Decode (MojBase64Encode src pad) = .ok src := by
    unfold base64Decode
    rw [htrim, mapM_base64Val]
    exact base64Chunks_sixes src
  have htotal : (MojBase64Encode src pad).length = (sixes src).length + (padding pad (sixes src).length).length := by
    rw [MojBase64Encode, List.length_append, base64Encode_eq, List.length_map]
  have hsize : MojBase64DecodedSizeMax (MojBase64Encode src pad).length = (src.length + 2) / 3 * 3 := by
    rw [htotal, MojBase64DecodedSizeMax]
    cases pad with
    | false =>
      simp only [padding, Bool.false_eq_true, if_false, List.length_nil]
      omega
    | true =>
      simp only [padding, if_true, List.length_replicate]
      omega
  rw [MojBase64Decode, hdecode, ok_bind, htrim, List.length_map]
  dsimp only
  rw [hsize]
  have hmod : src.length % 3 = 0 ∨ src.length % 3 = 1 ∨ src.length % 3 = 2 := by omega
  split
  · exact congrArg (fun n => Except.ok (src, n)) (by omega)
  · exact congrArg (fun n => Except.ok (src, n)) (by omega)
  · rename_i htwo hthree
    cases hmod with
    | inl hmod => exact congrArg (fun n => Except.ok (src, n)) (by omega)
    | inr hmod =>
      cases hmod with
      | inl hmod => exact absurd (by omega) htwo
      | inr hmod => exact absurd (by omega) hthree

theorem decodeString_encode (src : List MojByte) (pad : Bool) : decodeString (MojBase64Encode src pad) = .ok src := by
  rw [decodeString, decode_encode, ok_bind]
  dsimp only
  rw [Nat.sub_self, List.replicate_zero, List.append_nil]
  rfl

/-! ## Canonical texts -/

/-- The bits of the last character that stand for no byte. -/
def strayBits : List (Fin 64) → Nat
  | _ :: _ :: _ :: _ :: rest => strayBits rest
  | [_, _, c] => c.val % 4
  | [_, b] => b.val % 16
  | _ => 0

/-- Characters of the alphabet, none of them alone in its group and without stray bits, then the padding that fills up
the last group. -/
def Canonical (pad : Bool) (text : List MojByte) : Prop :=
  ∃ vals : List (Fin 64), text = vals.map base64Char ++ padding pad vals.length ∧ vals.length % 4 ≠ 1 ∧ strayBits vals = 0

/-- Group by group, the bytes of characters without stray bits have these characters. -/
theorem sixes_of_chunks : ∀ (vals : List (Fin 64)) (bytes : List MojByte),
    base64Chunks (vals.map Fin.val) = .ok bytes → strayBits vals = 0 → sixes bytes = vals
  | a :: b :: c :: d :: rest, bytes, h, hstray => by
    obtain ⟨more, hmore, hret⟩ := bind_eq_ok.mp h
    obtain rfl := pure_eq_ok.mp hret
    have ih := sixes_of_chunks rest more hmore hstray
    have ha := a.isLt
    have hb := b.isLt
    have hc := c.isLt
    have hd := d.isLt
    simp only [bigEndian, List.cons_append, List.nil_append, sixes, ih, List.cons.injEq, Fin.ext_iff, Fin.val_ofNat,
      Nat.reducePow, and_true]
    omega
  | [a, b, c], bytes, h, hstray => by
    obtain rfl := Except.ok.inj h
    have ha := a.isLt
    have hb := b.isLt
    have hc := c.isLt
    change c.val % 4 = 0 at hstray
    simp only [bigEndian, sixes, List.take, List.cons.injEq, Fin.ext_iff, Fin.val_ofNat, Nat.reducePow, and_true]
    omega
  | [a, b], bytes, h, hstray => by
    obtain rfl := Except.ok.inj h
    have ha := a.isLt
    have hb := b.isLt
    change b.val % 16 = 0 at hstray
    simp only [bigEndian, sixes, List.take, List.cons.injEq, Fin.ext_iff, Fin.val_ofNat, Nat.reducePow, and_true]
    omega
  | [_], _, h, _ => by cases h
  | [], bytes, h, _ => by
    obtain rfl := Except.ok.inj h
    rfl

/-- **A canonical text that is accepted is the encoding of what it is read as.** -/
theorem encode_of_decode {pad : Bool} {text bytes : List MojByte} {sizeOut : Nat} (hcanonical : Canonical pad text)
    (h : MojBase64Decode text = .ok (bytes, sizeOut)) : MojBase64Encode bytes pad = text := by
  obtain ⟨vals, rfl, hgroup, hstray⟩ := hcanonical
  obtain ⟨dest, hdest, hret⟩ := bind_eq_ok.mp h
  have hbytes : dest = bytes := by
    dsimp only at hret
    split at hret
    · exact (Prod.mk.inj (pure_eq_ok.mp hret)).1
    · exact (Prod.mk.inj (pure_eq_ok.mp hret)).1
    · exact (Prod.mk.inj (pure_eq_ok.mp hret)).1
  obtain rfl := hbytes
  have htrim : trimPadding (vals.map base64Char ++ padding pad vals.length) = vals.map base64Char := by
    cases pad with
    | false => exact trimPadding_append (pad_notMem _) (Nat.zero_le 2)
    | true => exact trimPadding_append (pad_notMem _) (by omega)
  unfold base64Decode at hdest
  rw [htrim, mapM_base64Val] at hdest
  rw [MojBase64Encode, base64Encode_eq, sixes_of_chunks vals dest hdest hstray, List.length_map]

/-- Characters are decoded when the last group is not a single one. -/
theorem exists_chunks : ∀ vals : List Nat, vals.length % 4 ≠ 1 → ∃ bytes, base64Chunks vals = .ok bytes
  | _ :: _ :: _ :: _ :: rest, h => by
    have hrest : rest.length % 4 ≠ 1 := by
      simp only [List.length_cons] at h
      omega
    obtain ⟨bytes, hbytes⟩ := exists_chunks rest hrest
    rw [base64Chunks, hbytes, ok_bind]
    exact ⟨_, rfl⟩
  | [_, _, _], _ => ⟨_, rfl⟩
  | [_, _], _ => ⟨_, rfl⟩
  | [_], h => absurd rfl h
  | [], _ => ⟨_, rfl⟩

/-- A canonical text without padding is the encoding of the bytes it is decoded to. -/
theorem exists_bytes_of_canonical {text : List MojByte} (h : Canonical false text) :
    ∃ bytes, decodeString text = .ok bytes ∧ base64Encode bytes = text := by
  obtain ⟨vals, rfl, hgroup, hstray⟩ := h
  obtain ⟨bytes, hbytes⟩ := exists_chunks (vals.map Fin.val) (by rw [List.length_map]; exact hgroup)
  have hencode : base64Encode bytes = vals.map base64Char ++ padding false vals.length := by
    rw [base64Encode_eq, sixes_of_chunks vals bytes hbytes hstray]
    exact (List.append_nil _).symm
  have hplain : base64Encode bytes = MojBase64Encode bytes false := (List.append_nil _).symm
  refine ⟨bytes, ?_, hencode⟩
  rw [← hencode, hplain, decodeString_encode]

/-! ## The order of the bytes -/

/-- The first `k` bytes of a group are the number `N`, and the first `k + 1` characters are it with the bits `x` of the next
byte. -/
structure Group (k : Nat) (s : List MojByte) (N x : Nat) (s' : List MojByte) (r : List (Fin 64)) : Prop where
  bytes : s = bigEndian 256 k N ++ s'
  chars : sixes s = bigEndian 64 (k + 1) (N * 4 ^ (3 - k) + x) ++ r
  lt_bytes : N < 256 ^ k
  lt_chars : x < 4 ^ (3 - k)
  ends : s' = [] → x = 0 ∧ r = []
  goes_on : s' ≠ [] → r ≠ []
  next : k = 3 → r = sixes s'

theorem sixes_ne_nil : ∀ {s : List MojByte}, s ≠ [] → sixes s ≠ []
  | [], h => absurd rfl h
  | [_], _ => List.cons_ne_nil _ _
  | [_, _], _ => List.cons_ne_nil _ _
  | _ :: _ :: _ :: _, _ => List.cons_ne_nil _ _

theorem exists_group_one : ∀ {s : List MojByte}, 1 ≤ s.length → ∃ N x s' r, Group 1 s N x s' r
  | [], h => absurd h (Nat.not_succ_le_zero 0)
  | [a], _ => by
    have ha := a.isLt
    refine ⟨a.val, 0, [], [], ?_, ?_, by omega, by decide, fun _ => ⟨rfl, rfl⟩, fun h => absurd rfl h, fun h => absurd h (by decide)⟩
    · simp [bigEndian]
    · simp only [sixes, bigEndian, List.take, List.append_nil, List.cons.injEq, Fin.ext_iff, Fin.val_ofNat,
        Nat.reducePow, Nat.reduceSub, and_true]
      omega
  | [a, b], _ => by
    have ha := a.isLt
    have hb := b.isLt
    refine ⟨a.val, b.val / 16, [b], [Fin.ofNat 64 (b.val * 4)], ?_, ?_, by omega, by omega, fun h => absurd h (List.cons_ne_nil _ _),
      fun _ => List.cons_ne_nil _ _, fun h => absurd h (by decide)⟩
    · simp [bigEndian]
    · simp only [sixes, bigEndian, List.take, List.cons_append, List.nil_append, List.cons.injEq, Fin.ext_iff,
        Fin.val_ofNat, Nat.reducePow, Nat.reduceSub, and_true]
      omega
  | a :: b :: c :: rest, _ => by
    have ha := a.isLt
    have hb := b.isLt
    have hc := c.isLt
    refine ⟨a.val, b.val / 16, b :: c :: rest, Fin.ofNat 64 (b.val * 4 + c.val / 64) :: Fin.ofNat 64 c.val :: sixes rest, ?_, ?_,
      by omega, by omega, fun h => absurd h (List.cons_ne_nil _ _), fun _ => List.cons_ne_nil _ _, fun h => absurd h (by decide)⟩
    · simp [bigEndian]
    · simp only [sixes, bigEndian, List.cons_append, List.nil_append, List.cons.injEq, Fin.ext_iff,
        Fin.val_ofNat, Nat.reducePow, Nat.reduceSub, and_true]
      omega

theorem exists_group_two : ∀ {s : List MojByte}, 2 ≤ s.length → ∃ N x s' r, Group 2 s N x s' r
  | [], h => absurd h (Nat.not_succ_le_zero 1)
  | [_], h => absurd (Nat.le_of_succ_le_succ h) (Nat.not_succ_le_zero 0)
  | [a, b], _ => by
    have ha := a.isLt
    have hb := b.isLt
    refine ⟨a.val * 256 + b.val, 0, [], [], ?_, ?_, by omega, by decide, fun _ => ⟨rfl, rfl⟩, fun h => absurd rfl h,
      fun h => absurd h (by decide)⟩
    · simp only [bigEndian, List.append_nil, List.cons.injEq, Fin.ext_iff, Fin.val_ofNat, Nat.reducePow, and_true]
      omega
    · simp only [sixes, bigEndian, List.take, List.append_nil, List.cons.injEq, Fin.ext_iff, Fin.val_ofNat,
        Nat.reducePow, Nat.reduceSub, and_true]
      omega
  | a :: b :: c :: rest, _ => by
    have ha := a.isLt
    have hb := b.isLt
    have hc := c.isLt
    refine ⟨a.val * 256 + b.val, c.val / 64, c :: rest, Fin.ofNat 64 c.val :: sixes rest, ?_, ?_, by omega, by omega,
      fun h => absurd h (List.cons_ne_nil _ _), fun _ => List.cons_ne_nil _ _, fun h => absurd h (by decide)⟩
    · simp only [bigEndian, List.cons_append, List.nil_append, List.cons.injEq, Fin.ext_iff, Fin.val_ofNat, Nat.reducePow, and_true]
      omega
    · simp only [sixes, bigEndian, List.cons_append, List.nil_append, List.cons.injEq, Fin.ext_iff,
        Fin.val_ofNat, Nat.reducePow, Nat.reduceSub, and_true]
      omega

theorem exists_group_three : ∀ {s : List MojByte}, 3 ≤ s.length → ∃ N s', Group 3 s N 0 s' (sixes s')
  | [], h => absurd h (Nat.not_succ_le_zero 2)
  | [_], h => absurd (Nat.le_of_succ_le_succ h) (Nat.not_succ_le_zero 1)
  | [_, _], h => absurd (Nat.le_of_succ_le_succ (Nat.le_of_succ_le_succ h)) (Nat.not_succ_le_zero 0)
  | a :: b :: c :: rest, _ => by
    have ha := a.isLt
    have hb := b.isLt
    have hc := c.isLt
    refine ⟨a.val * 2 ^ 16 + b.val * 2 ^ 8 + c.val, rest, ?_, ?_, by omega, by decide, fun h => ⟨rfl, h ▸ rfl⟩, sixes_ne_nil,
      fun _ => rfl⟩
    · rw [@bytes_eq _ a.val b.val c.val hb hc rfl]
      simp
    · simp [sixes]

theorem Group.lt_digits {k : Nat} {s s' : List MojByte} {N x : Nat} {r : List (Fin 64)} (h : Group k s N x s' r)
    (hk : k = 1 ∨ k = 2 ∨ k = 3) : N * 4 ^ (3 - k) + x < 64 ^ (k + 1) := by
  have hN := h.lt_bytes
  have hx := h.lt_chars
  obtain rfl | rfl | rfl := hk
  · omega
  · omega
  · omega

/-- A smaller group has smaller characters; of two equal groups what follows them decides. -/
theorem Group.sixes_lt {k : Nat} {s t s' t' : List MojByte} {N M x y : Nat} {r u : List (Fin 64)} (hs : Group k s N x s' r)
    (ht : Group k t M y t' u) (hk : k = 1 ∨ k = 2 ∨ k = 3) (h : s < t) (hnext : s' < t' → x ≤ y ∧ r < u) :
    sixes s < sixes t := by
  rw [hs.chars, ht.chars, bigEndian_append_lt_iff (hs.lt_digits hk) (ht.lt_digits hk)]
  rw [hs.bytes, ht.bytes, bigEndian_append_lt_iff hs.lt_bytes ht.lt_bytes] at h
  have hx := hs.lt_chars
  cases h with
  | inl hlt =>
    have hmul : (N + 1) * 4 ^ (3 - k) ≤ M * 4 ^ (3 - k) := Nat.mul_le_mul_right _ hlt
    rw [Nat.add_mul] at hmul
    omega
  | inr hsame =>
    obtain ⟨rfl, hlt⟩ := hsame
    obtain ⟨hle, hru⟩ := hnext hlt
    cases Nat.lt_or_eq_of_le hle with
    | inl hxy => exact .inl (by omega)
    | inr hxy => exact .inr ⟨by rw [hxy], hru⟩

/-- When the smaller text ends with its group, the greater one goes on. -/
theorem Group.next_of_ends {k : Nat} {s t s' t' : List MojByte} {N M x y : Nat} {r u : List (Fin 64)} (hs : Group k s N x s' r)
    (ht : Group k t M y t' u) (hends : s' = [] ∨ t' = []) (h : s' < t') : x ≤ y ∧ r < u := by
  have hne : t' ≠ [] := by
    intro hnil
    rw [hnil] at h
    exact List.not_lt_nil _ h
  obtain ⟨rfl, rfl⟩ := hs.ends (hends.resolve_right hne)
  obtain ⟨d, ds, rfl⟩ := List.exists_cons_of_ne_nil (ht.goes_on hne)
  exact ⟨Nat.zero_le y, List.nil_lt_cons d ds⟩

theorem Group.eq_nil {k : Nat} {s s' : List MojByte} {N x : Nat} {r : List (Fin 64)} (h : Group k s N x s' r)
    (hlen : s.length = k) : s' = [] := by
  have htotal := congrArg List.length h.bytes
  rw [List.length_append, bigEndian_length, hlen] at htotal
  exact List.length_eq_zero_iff.mp (by omega)

/-- By induction on the groups: the characters of a smaller group are smaller, and a text that goes on is the greater. -/
theorem sixes_lt {s t : List MojByte} (h : s < t) : sixes s < sixes t := by
  have hne : t ≠ [] := by
    intro hnil
    rw [hnil] at h
    exact List.not_lt_nil _ h
  have ht : 1 ≤ t.length := List.length_pos_iff.mpr hne
  by_cases hs : s = []
  · obtain ⟨d, ds, hd⟩ := List.exists_cons_of_ne_nil (sixes_ne_nil hne)
    rw [hs, hd]
    exact List.nil_lt_cons d ds
  have hs : 1 ≤ s.length := List.length_pos_iff.mpr hs
  by_cases hone : s.length = 1 ∨ t.length = 1
  · obtain ⟨N, x, s', r, hgs⟩ := exists_group_one hs
    obtain ⟨M, y, t', u, hgt⟩ := exists_group_one ht
    exact hgs.sixes_lt hgt (.inl rfl) h (hgs.next_of_ends hgt (hone.imp hgs.eq_nil hgt.eq_nil))
  by_cases htwo : s.length = 2 ∨ t.length = 2
  · obtain ⟨N, x, s', r, hgs⟩ := @exists_group_two s (by omega)
    obtain ⟨M, y, t', u, hgt⟩ := @exists_group_two t (by omega)
    exact hgs.sixes_lt hgt (.inr (.inl rfl)) h (hgs.next_of_ends hgt (htwo.imp hgs.eq_nil hgt.eq_nil))
  · obtain ⟨N, s', hgs⟩ := @exists_group_three s (by omega)
    obtain ⟨M, t', hgt⟩ := @exists_group_three t (by omega)
    have hshorter : s'.length < s.length := by
      rw [hgs.bytes, List.length_append, bigEndian_length]
      omega
    exact hgs.sixes_lt hgt (.inr (.inr rfl)) h fun hlt => ⟨le_refl 0, sixes_lt hlt⟩
  termination_by s.length

theorem sixes_strictMono : StrictMono sixes := fun _ _ h => sixes_lt h

/-- **The unpadded encoding keeps the order of the bytes.** -/
theorem encode_lt_iff {s t : List MojByte} : MojBase64Encode s false < MojBase64Encode t false ↔ s < t := by
  have hchars : ∀ u v : List (Fin 64), lexCompare (u.map base64Char) (v.map base64Char) = lexCompare u v := by
    intro u
    induction u with
    | nil => intro v; cases v <;> rfl
    | cons a u ih =>
      intro v
      cases v with
      | nil => rfl
      | cons b v => simp only [List.map_cons, lexCompare_cons_cons, ih, base64Char_strictMono.cmp_map_eq]
  have hplain : ∀ u, MojBase64Encode u false = (sixes u).map base64Char := by
    intro u
    rw [MojBase64Encode, base64Encode_eq]
    exact List.append_nil _
  rw [hplain, hplain, ← lexCompare_eq_lt, hchars, lexCompare_eq_lt]
  exact sixes_strictMono.lt_iff_lt

/-- **The base64 coding**: decoding undoes encoding, with the padding and without it; a canonical text that is accepted is
the encoding of its bytes; and without the padding the texts are in the order of their bytes. -/
theorem base64_coding :
    (∀ (src : List MojByte) (pad : Bool), MojBase64Decode (MojBase64Encode src pad) = .ok (src, src.length)) ∧
      (∀ (pad : Bool) (text bytes : List MojByte) (sizeOut : Nat), MojBase64Decode text = .ok (bytes, sizeOut) →
        Canonical pad text → MojBase64Encode bytes pad = text) ∧
      ∀ s t : List MojByte, MojBase64Encode s false < MojBase64Encode t false ↔ s < t :=
  ⟨decode_encode, fun _ _ _ _ h hcanonical => encode_of_decode hcanonical h, fun _ _ => encode_lt_iff⟩

/-- `4EiR+k==` -/
example : MojBase64Encode [20, 251, 156, 3] true = [52, 69, 105, 82, 43, 107, 61, 61] := by decide

end MojDbIdGenerator

end Db8
