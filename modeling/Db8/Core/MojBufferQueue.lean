import Db8.Core.MojBuffer

/-!
# Core.MojBufferQueue

What a buffer holds as a queue of bytes, and what the functions do with it.

* `Content`, `Shows`        — the bytes that are not yet consumed, in a well formed buffer.
* `Fresh`, `AtBegin`, `Drained` — the states that the source handles as its callers expect.
* `Segments`                — what `iovec` gives of a queue.
* `Shows.write`, `Shows.advance`, `Shows.data`, … — a function, on the queue.
* `write_of_nil`            — the first write to a buffer that `release` left with its read position.
-/

namespace Db8

namespace MojBuffer

variable {next n : Nat} {buf : MojBuffer} {q bytes : List MojByte}

/-! ## What a buffer holds -/

/-- All bytes of the chunks, also those before the read position. -/
def written (buf : MojBuffer) : List MojByte := (buf.chunks.map Chunk.data).flatten

/-- The bytes that are not yet consumed. The chunks after the first are never empty. -/
inductive Content : MojBuffer → List MojByte → Prop where
  | nil (readPos : Option Pos) : Content ⟨[], readPos⟩ []
  | cons {first : Chunk} {rest : List Chunk} {offset : Nat} (hoffset : offset ≤ first.dataSize)
      (hrest : ∀ chunk ∈ rest, chunk.data ≠ []) :
      Content ⟨first :: rest, some ⟨first.id, offset⟩⟩
        (first.data.drop offset ++ (rest.map Chunk.data).flatten)

/-- `m_readPos` is not left behind by `release`. -/
def Fresh (buf : MojBuffer) : Prop := buf.chunks = [] → buf.readPos = none

/-- No byte of the first chunk is consumed. -/
def AtBegin (buf : MojBuffer) : Prop := ∀ first, buf.chunks.head? = some first → buf.readPos = some first.begin

/-- All bytes are consumed. -/
def Drained (buf : MojBuffer) : Prop :=
  ∀ first, buf.chunks.head? = some first → buf.chunks = [first] ∧ buf.readPos = some ⟨first.id, first.dataSize⟩

structure Shows (next : Nat) (buf : MojBuffer) (q : List MojByte) : Prop where
  content : Content buf q
  room : ∀ chunk ∈ buf.chunks, chunk.dataSize ≤ chunk.size
  known : ∀ chunk ∈ buf.chunks, chunk.id < next
  released : buf.chunks = [] → ∀ pos, buf.readPos = some pos → pos.id < next

theorem Content.single {chunk : Chunk} {offset : Nat} (hoffset : offset ≤ chunk.dataSize) :
    Content ⟨[chunk], some ⟨chunk.id, offset⟩⟩ (chunk.data.drop offset) := by
  have hcontent : Content ⟨[chunk], _⟩ _ := .cons hoffset nofun
  simpa using hcontent

theorem shows_nil (hold : ∀ pos, buf.readPos = some pos → pos.id < next) (hnil : buf.chunks = []) :
    Shows next buf [] := by
  obtain ⟨chunks, readPos⟩ := buf
  cases hnil
  exact ⟨.nil readPos, nofun, nofun, fun _ => hold⟩

theorem Shows.mono {next' : Nat} (h : Shows next buf q) (hle : next ≤ next') : Shows next' buf q :=
  ⟨h.content, h.room, fun chunk hchunk => (h.known chunk hchunk).trans_le hle,
    fun hnil pos hpos => (h.released hnil pos hpos).trans_le hle⟩

/-! ## Reading -/

theorem Chunk.bytesFrom_begin (chunk : Chunk) : chunk.bytesFrom (some chunk.begin) = some chunk.data := by
  simp [Chunk.bytesFrom, Chunk.Holds, Chunk.begin]

theorem Chunk.bytesFrom_offset {chunk : Chunk} {offset : Nat} (h : offset ≤ chunk.dataSize) :
    chunk.bytesFrom (some ⟨chunk.id, offset⟩) = some (chunk.data.drop offset) := by
  simp [Chunk.bytesFrom, Chunk.Holds, h]

theorem toByteVecLoop_rest (rest : List Chunk) :
    toByteVecLoop (rest.map fun chunk => (some chunk.begin, chunk)) = some (rest.map Chunk.data).flatten := by
  induction rest with
  | nil => rfl
  | cons chunk rest ih => simp [toByteVecLoop, Chunk.bytesFrom_begin, ih]

theorem Content.toByteVec (h : Content buf q) : buf.toByteVec = some q := by
  cases h with
  | nil => rfl
  | cons hoffset => simp [MojBuffer.toByteVec, based, toByteVecLoop, Chunk.bytesFrom_offset hoffset, toByteVecLoop_rest]

/-- Segments of at most `n` entries that begin with the bytes `q`, and reach their end when entries are left. -/
structure Segments (q : List MojByte) (n : Nat) (vec : List (List MojByte)) : Prop where
  isPrefix : vec.flatten <+: q
  length_le : vec.length ≤ n
  whole : vec.length < n → vec.flatten = q
  ne_nil : ∀ bytes ∈ vec, bytes ≠ []

theorem Segments.nil (n : Nat) : Segments [] n [] :=
  ⟨List.prefix_refl _, Nat.zero_le n, fun _ => rfl, nofun⟩

theorem Segments.zero (q : List MojByte) : Segments q 0 [] :=
  ⟨List.nil_prefix, le_rfl, nofun, nofun⟩

theorem Segments.cons {vec : List (List MojByte)} (h : Segments q n vec) (hne : bytes ≠ []) :
    Segments (bytes ++ q) (n + 1) (bytes :: vec) := by
  refine ⟨?_, by simpa using h.length_le, fun hlt => ?_, ?_⟩
  · simpa using h.isPrefix
  · simp only [List.length_cons, Nat.add_lt_add_iff_right] at hlt
    simp [h.whole hlt]
  · intro b hb
    rcases List.mem_cons.mp hb with rfl | hb
    · exact hne
    · exact h.ne_nil b hb

theorem iovecLoop_rest {rest : List Chunk} (hrest : ∀ chunk ∈ rest, chunk.data ≠ []) (n : Nat) :
    ∃ vec, iovecLoop (rest.map fun chunk => (some chunk.begin, chunk)) n = some vec ∧
      Segments (rest.map Chunk.data).flatten n vec := by
  induction rest generalizing n with
  | nil => exact ⟨[], rfl, .nil n⟩
  | cons chunk rest ih =>
    cases n with
    | zero => exact ⟨[], rfl, .zero _⟩
    | succ n =>
      obtain ⟨vec, hvec, hsegments⟩ := ih (fun c hc => hrest c (List.mem_cons_of_mem _ hc)) n
      have hne := hrest chunk List.mem_cons_self
      refine ⟨chunk.data :: vec, ?_, hsegments.cons hne⟩
      simp [iovecLoop, Chunk.bytesFrom_begin, List.length_pos_iff.mpr hne, hvec]

theorem Content.iovec (h : Content buf q) (n : Nat) : ∃ vec, buf.iovec n = some vec ∧ Segments q n vec := by
  cases h with
  | nil => exact ⟨[], rfl, .nil n⟩
  | @cons first rest offset hoffset hrest =>
    cases n with
    | zero => exact ⟨[], rfl, .zero _⟩
    | succ n =>
      by_cases hne : first.data.drop offset = []
      · obtain ⟨vec, hvec, hsegments⟩ := iovecLoop_rest hrest (n + 1)
        refine ⟨vec, ?_, by rwa [hne, List.nil_append]⟩
        simp [MojBuffer.iovec, based, iovecLoop, Chunk.bytesFrom_offset hoffset, hne, hvec]
      · obtain ⟨vec, hvec, hsegments⟩ := iovecLoop_rest hrest n
        refine ⟨_, ?_, hsegments.cons hne⟩
        have hpos : 0 < (first.data.drop offset).length := List.length_pos_iff.mpr hne
        simp only [MojBuffer.iovec, based, iovecLoop, Chunk.bytesFrom_offset hoffset, Option.bind_eq_bind,
          Option.bind_some, hpos, if_true, hvec]

theorem Content.drained_iff (h : Content buf q) : Drained buf ↔ q = [] := by
  cases h with
  | nil => simp [Drained]
  | @cons first rest offset hoffset hrest =>
    cases rest with
    | nil =>
      simp only [Chunk.dataSize] at hoffset
      simp only [Drained, List.head?_cons, Option.some.injEq, forall_eq', true_and, Pos.mk.injEq, Chunk.dataSize,
        List.map_nil, List.flatten_nil, List.append_nil, List.drop_eq_nil_iff]
      omega
    | cons chunk rest => simp [Drained, hrest chunk List.mem_cons_self]

theorem Content.empty_eq (h : Content buf q) (hfresh : Fresh buf) : buf.empty = q.isEmpty := by
  rw [Bool.eq_iff_iff, List.isEmpty_iff, ← h.drained_iff]
  cases h with
  | nil readPos =>
    obtain rfl : readPos = none := hfresh rfl
    simp [empty, Drained]
  | @cons first rest offset => cases rest <;> simp [empty, Drained]

/-! ## Consuming -/

/-- What is left of the chunks after `pop`. -/
theorem Content.popped {rest : List Chunk} (hrest : ∀ chunk ∈ rest, chunk.data ≠ []) :
    Content ⟨rest, poppedPos rest⟩ (rest.map Chunk.data).flatten := by
  cases rest with
  | nil => exact .nil _
  | cons chunk rest => exact .cons (Nat.zero_le chunk.dataSize) fun c hc => hrest c (List.mem_cons_of_mem _ hc)

theorem advanceLoop_zero (chunks : List Chunk) (readPos : Option Pos) :
    advanceLoop chunks readPos 0 = some ⟨chunks, readPos⟩ := by
  cases chunks <;> rfl

theorem advanceLoop_cons {first : Chunk} {rest : List Chunk} {offset : Nat} (hoffset : offset ≤ first.dataSize)
    (hn : 0 < n) :
    advanceLoop (first :: rest) (some ⟨first.id, offset⟩) n =
      if n ≤ first.dataSize - offset then some ⟨first :: rest, some ⟨first.id, offset + n⟩⟩
      else advanceLoop rest (poppedPos rest) (n - (first.dataSize - offset)) := by
  cases n with
  | zero => omega
  | succ n =>
    have hholds : first.Holds ⟨first.id, offset⟩ := ⟨rfl, hoffset⟩
    simp only [advanceLoop, Option.filter_some, hholds, decide_true, if_true, Option.bind_eq_bind, Option.bind_some]
    by_cases hle : n + 1 ≤ first.dataSize - offset
    · rw [if_neg (by omega), if_pos hle, Nat.min_eq_left hle]
    · rw [if_pos (by omega), if_neg hle, Nat.min_eq_right (by omega)]

theorem advanceLoop_of_lt {chunks : List Chunk} {readPos : Option Pos} (h : Content ⟨chunks, readPos⟩ q)
    (hn : q.length < n) : advanceLoop chunks readPos n = none := by
  induction chunks generalizing readPos n q with
  | nil =>
    cases h
    cases n with
    | zero => simp at hn
    | succ n => rfl
  | cons first rest ih =>
    cases h with
    | cons hoffset hrest =>
      simp only [List.length_append, List.length_drop] at hn
      simp only [Chunk.dataSize] at hoffset
      rw [advanceLoop_cons hoffset (by omega), Chunk.dataSize, if_neg (by omega)]
      exact ih (.popped hrest) (by omega)

theorem advanceLoop_of_le {chunks : List Chunk} {readPos : Option Pos} (h : Content ⟨chunks, readPos⟩ q)
    (hpos : 0 < n) (hn : n ≤ q.length) :
    ∃ buf, advanceLoop chunks readPos n = some buf ∧ Content buf (q.drop n) ∧ buf.chunks ≠ [] ∧ buf.chunks <:+ chunks := by
  induction chunks generalizing readPos n q with
  | nil =>
    cases h
    simp only [List.length_nil, Nat.le_zero_eq] at hn
    omega
  | cons first rest ih =>
    cases h with
    | @cons _ _ offset hoffset hrest =>
      simp only [List.length_append, List.length_drop] at hn
      rw [advanceLoop_cons hoffset hpos]
      by_cases hle : n ≤ first.dataSize - offset
      · rw [if_pos hle]
        refine ⟨_, rfl, ?_, List.cons_ne_nil _ _, List.suffix_refl _⟩
        rw [List.drop_append_of_le_length (by simpa [Chunk.dataSize] using hle), List.drop_drop]
        exact .cons (by omega) hrest
      · rw [if_neg hle]
        simp only [Chunk.dataSize] at hoffset hle ⊢
        obtain ⟨buf, hbuf, hcontent, hne, hsuffix⟩ :=
          ih (.popped hrest) (by omega : 0 < n - (first.data.length - offset)) (by omega)
        refine ⟨buf, hbuf, ?_, hne, hsuffix.trans (List.suffix_cons _ _)⟩
        rwa [List.drop_append, List.drop_of_length_le (by simp; omega), List.nil_append, List.length_drop]

theorem Shows.advance (h : Shows next buf q) (hn : n ≤ q.length) :
    ∃ buf', buf.advance n = some buf' ∧ Shows next buf' (q.drop n) := by
  rcases Nat.eq_zero_or_pos n with rfl | hpos
  · exact ⟨buf, advanceLoop_zero _ _, h⟩
  · obtain ⟨buf', hbuf, hcontent, hne, hsuffix⟩ := advanceLoop_of_le h.content hpos hn
    exact ⟨buf', hbuf, hcontent, fun chunk hchunk => h.room chunk (hsuffix.subset hchunk),
      fun chunk hchunk => h.known chunk (hsuffix.subset hchunk), fun hnil => absurd hnil hne⟩

theorem clearLoop_chunks (chunks : List Chunk) (readPos : Option Pos) : (clearLoop chunks readPos).chunks = [] := by
  induction chunks generalizing readPos with
  | nil => rfl
  | cons chunk chunks ih => exact ih _

theorem clear_chunks (buf : MojBuffer) : buf.clear.chunks = [] := clearLoop_chunks _ _

theorem clearLoop_cons (first : Chunk) (rest : List Chunk) (readPos : Option Pos) :
    clearLoop (first :: rest) readPos = new := by
  induction rest generalizing first readPos with
  | nil => rfl
  | cons chunk rest ih => exact ih chunk (poppedPos (chunk :: rest))

theorem Shows.clear (h : Shows next buf q) : Shows next buf.clear [] := by
  refine shows_nil (fun pos hpos => ?_) (clear_chunks buf)
  obtain ⟨chunks, readPos⟩ := buf
  cases chunks with
  | nil => exact h.released rfl pos hpos
  | cons first rest =>
    rw [MojBuffer.clear, clearLoop_cons] at hpos
    cases hpos

/-! ## Writing -/

/-- More bytes in the last chunk. -/
theorem Content.append {init : List Chunk} {last : Chunk} {readPos : Option Pos}
    (h : Content ⟨init ++ [last], readPos⟩ q) (hne : bytes ≠ []) :
    Content ⟨init ++ [{ last with data := last.data ++ bytes }], readPos⟩ (q ++ bytes) := by
  cases init with
  | nil =>
    cases h with
    | @cons _ _ offset hoffset hrest =>
      have hdrop : (last.data ++ bytes).drop offset = last.data.drop offset ++ bytes :=
        List.drop_append_of_le_length hoffset
      have hle : offset ≤ Chunk.dataSize { last with data := last.data ++ bytes } := by
        simp only [Chunk.dataSize, List.length_append] at hoffset ⊢
        omega
      simpa [hdrop] using Content.single hle
  | cons first init =>
    cases h with
    | cons hoffset hrest =>
      have hrest' : ∀ chunk ∈ init ++ [{ last with data := last.data ++ bytes }], chunk.data ≠ [] := by
        intro chunk hchunk
        rcases List.mem_append.mp hchunk with hinit | hlast
        · exact hrest chunk (List.mem_append_left _ hinit)
        · obtain rfl := List.mem_singleton.mp hlast
          simp [hne]
      have hcontent := Content.cons hoffset hrest'
      simpa using hcontent

/-- A chunk with bytes after the others. -/
theorem Content.push (h : Content buf q) (hfresh : Fresh buf) {chunk : Chunk} (hne : chunk.data ≠ []) :
    Content ⟨buf.chunks ++ [chunk], buf.readPos.or (some chunk.begin)⟩ (q ++ chunk.data) := by
  cases h with
  | nil readPos =>
    obtain rfl : readPos = none := hfresh rfl
    simpa [Chunk.begin] using Content.single (Nat.zero_le chunk.dataSize)
  | @cons first rest offset hoffset hrest =>
    have hrest' : ∀ c ∈ rest ++ [chunk], c.data ≠ [] := by
      intro c hc
      rcases List.mem_append.mp hc with hc | hc
      · exact hrest c hc
      · exact List.mem_singleton.mp hc ▸ hne
    have hcontent := Content.cons hoffset hrest'
    simpa using hcontent

/-- The last chunk of the result has room, and takes bytes as the buffer does. -/
theorem writeableChunk_spec (h : Shows next buf q) (hfresh : Fresh buf) (hn : 0 < n) :
    ∃ next' init last readPos, writeableChunk next buf n = (next', ⟨init ++ [last], readPos⟩) ∧ next ≤ next' ∧
      0 < last.freeSpace ∧
      ∀ bytes : List MojByte, bytes ≠ [] → bytes.length ≤ last.freeSpace →
        Shows next' ⟨init ++ [{ last with data := last.data ++ bytes }], readPos⟩ (q ++ bytes) := by
  obtain ⟨chunks, readPos⟩ := buf
  by_cases hroom : chunks.getLast?.any (fun chunk => 0 < chunk.freeSpace) = true
  · rcases List.eq_nil_or_concat chunks with rfl | ⟨init, last, rfl⟩
    · cases hroom
    · rw [List.concat_eq_append] at h hroom ⊢
      have hpos : 0 < last.freeSpace := by simpa using hroom
      refine ⟨next, init, last, readPos, by simp [writeableChunk, hpos], le_rfl, hpos, fun bytes hne hlen => ?_⟩
      refine ⟨h.content.append hne, fun chunk hchunk => ?_, fun chunk hchunk => ?_, by simp⟩
      · rcases List.mem_append.mp hchunk with hinit | hlast
        · exact h.room chunk (List.mem_append_left _ hinit)
        · obtain rfl := List.mem_singleton.mp hlast
          simp only [Chunk.freeSpace, Chunk.dataSize, List.length_append] at hpos hlen ⊢
          omega
      · rcases List.mem_append.mp hchunk with hinit | hlast
        · exact h.known chunk (List.mem_append_left _ hinit)
        · obtain rfl := List.mem_singleton.mp hlast
          exact h.known last (List.mem_append_right _ (List.mem_singleton_self last))
  · have hsize : 0 < max n (ChunkSize - sizeofChunk) := lt_max_of_lt_left hn
    refine ⟨next + 1, chunks, ⟨next, [], max n (ChunkSize - sizeofChunk)⟩, readPos.or (some ⟨next, 0⟩),
      by simp [writeableChunk, hroom, Chunk.begin], Nat.le_succ _, hsize, fun bytes hne hlen => ?_⟩
    have hcontent := h.content.push hfresh (show Chunk.data ⟨next, bytes, max n (ChunkSize - sizeofChunk)⟩ ≠ [] from hne)
    refine ⟨hcontent, fun chunk hchunk => ?_, fun chunk hchunk => ?_, by simp⟩
    · rcases List.mem_append.mp hchunk with hold | hnew
      · exact h.room chunk hold
      · obtain rfl := List.mem_singleton.mp hnew
        exact hlen
    · rcases List.mem_append.mp hchunk with hold | hnew
      · exact (h.known chunk hold).trans (Nat.lt_succ_self _)
      · obtain rfl := List.mem_singleton.mp hnew
        exact Nat.lt_succ_self _

theorem writeLoop_spec {fuel : Nat} (h : Shows next buf q) (hfresh : Fresh buf) (hfuel : bytes.length ≤ fuel) :
    ∃ next' buf', writeLoop fuel next buf bytes = some (next', buf') ∧ next ≤ next' ∧ Shows next' buf' (q ++ bytes) := by
  induction fuel generalizing next buf q bytes with
  | zero =>
    obtain rfl : bytes = [] := List.length_eq_zero_iff.mp (Nat.le_zero.mp hfuel)
    exact ⟨next, buf, rfl, le_rfl, by simpa using h⟩
  | succ fuel ih =>
    cases bytes with
    | nil => exact ⟨next, buf, rfl, le_rfl, by simpa using h⟩
    | cons b bytes =>
      obtain ⟨next₁, init, last, readPos, hchunk, hle, hpos, hshows⟩ :=
        writeableChunk_spec h hfresh (List.length_pos_iff.mpr (List.cons_ne_nil b bytes))
      obtain ⟨k, hk⟩ : ∃ k, k = min (b :: bytes).length last.freeSpace := ⟨_, rfl⟩
      have htake : ((b :: bytes).take k).length = k := by simp [hk]
      have hfits : ((b :: bytes).take k).length ≤ last.freeSpace := by omega
      have hne : (b :: bytes).take k ≠ [] := by
        refine List.length_pos_iff.mp ?_
        simp only [List.length_cons] at hk
        omega
      have hwrite : last.write ((b :: bytes).take k) = some { last with data := last.data ++ (b :: bytes).take k } :=
        if_pos hfits
      have hrest : ((b :: bytes).drop k).length ≤ fuel := by
        simp only [List.length_drop, List.length_cons] at hfuel hk ⊢
        omega
      obtain ⟨next', buf', hloop, hle', hshows'⟩ := ih (hshows _ hne hfits) (by simp [Fresh]) hrest
      rw [List.append_assoc, List.take_append_drop] at hshows'
      refine ⟨next', buf', ?_, hle.trans hle', hshows'⟩
      rw [writeLoop, hchunk]
      simp only [writeChunk, List.getLast?_append, List.getLast?_singleton, Option.some_or, List.dropLast_concat,
        Option.bind_eq_bind, Option.bind_some, ← hk, hwrite, hloop]

theorem Shows.write (h : Shows next buf q) (hfresh : Fresh buf) (bytes : List MojByte) :
    ∃ next' buf', write next buf bytes = some (next', buf') ∧ next ≤ next' ∧ Shows next' buf' (q ++ bytes) :=
  writeLoop_spec h hfresh le_rfl

theorem Shows.writeByte (h : Shows next buf q) (hfresh : Fresh buf) (b : MojByte) :
    ∃ next' buf', writeByte next buf b = some (next', buf') ∧ next ≤ next' ∧ Shows next' buf' (q ++ [b]) := by
  obtain ⟨next', init, last, readPos, hchunk, hle, hpos, hshows⟩ := writeableChunk_spec h hfresh Nat.one_pos
  have hwrite : last.write [b] = some { last with data := last.data ++ [b] } := if_pos hpos
  refine ⟨next', _, ?_, hle, hshows [b] (List.cons_ne_nil _ _) hpos⟩
  simp [MojBuffer.writeByte, hchunk, hwrite]

/-- The first chunk after `release`, with a read position that is not in it. -/
theorem write_of_nil (pos : Pos) (hne : bytes ≠ []) :
    write next ⟨[], some pos⟩ bytes =
      some (next + 1, ⟨[⟨next, bytes, max bytes.length (ChunkSize - sizeofChunk)⟩], some pos⟩) := by
  cases bytes with
  | nil => exact absurd rfl hne
  | cons b bytes =>
    simp [write, writeLoop, writeableChunk, writeChunk, Chunk.write, Chunk.freeSpace, Chunk.dataSize]

theorem writeByte_of_nil (pos : Pos) (b : MojByte) :
    writeByte next ⟨[], some pos⟩ b =
      some (next + 1, ⟨[⟨next, [b], max 1 (ChunkSize - sizeofChunk)⟩], some pos⟩) := by
  simp [writeByte, writeableChunk, Chunk.write, Chunk.freeSpace, Chunk.dataSize]

theorem toByteVec_of_ne {pos : Pos} {first : Chunk} {rest : List Chunk} (hpos : pos.id ≠ first.id) :
    toByteVec ⟨first :: rest, some pos⟩ = none := by
  simp [toByteVec, based, toByteVecLoop, Chunk.bytesFrom, Chunk.Holds, hpos]

/-! ## Consolidation -/

theorem foldlM_write {chunks : List Chunk} {chunk : Chunk}
    (hroom : chunk.dataSize + (chunks.map Chunk.dataSize).sum ≤ chunk.size) :
    chunks.foldlM (fun chunk c => chunk.write c.data) chunk =
      some { chunk with data := chunk.data ++ (chunks.map Chunk.data).flatten } := by
  induction chunks generalizing chunk with
  | nil => simp
  | cons c chunks ih =>
    simp only [List.map_cons, List.sum_cons, Chunk.dataSize] at hroom
    have hwrite : chunk.write c.data = some { chunk with data := chunk.data ++ c.data } :=
      if_pos (by simp only [Chunk.freeSpace, Chunk.dataSize]; omega)
    rw [List.foldlM_cons, hwrite, Option.bind_eq_bind, Option.bind_some, ih]
    · simp
    · simp only [Chunk.dataSize, List.length_append]
      omega

theorem consolidate_of_le (hlen : buf.chunks.length ≤ 1) : consolidate next buf = some (next, buf) :=
  if_neg (by omega)

theorem consolidate_of_lt (hlen : 1 < buf.chunks.length) :
    consolidate next buf = some (next + 1,
      ⟨[⟨next, buf.written, (buf.chunks.map Chunk.dataSize).sum⟩], some ⟨next, 0⟩⟩) := by
  have hroom : Chunk.dataSize ⟨next, [], (buf.chunks.map Chunk.dataSize).sum⟩ + (buf.chunks.map Chunk.dataSize).sum ≤
      (buf.chunks.map Chunk.dataSize).sum := by simp [Chunk.dataSize]
  have hfold := foldlM_write hroom
  simp [consolidate, hlen, hfold, clear_chunks, written, Chunk.begin]

theorem length_written (buf : MojBuffer) : buf.written.length = (buf.chunks.map Chunk.dataSize).sum := by
  simp only [written, List.length_flatten, List.map_map]
  rfl

/-- One chunk with all bytes. -/
theorem shows_written (next : Nat) (buf : MojBuffer) :
    Shows (next + 1) ⟨[⟨next, buf.written, (buf.chunks.map Chunk.dataSize).sum⟩], some ⟨next, 0⟩⟩ buf.written := by
  refine ⟨.single (Nat.zero_le buf.written.length), fun chunk hchunk => ?_, fun chunk hchunk => ?_, nofun⟩
  · obtain rfl := List.mem_singleton.mp hchunk
    exact (length_written buf).le
  · obtain rfl := List.mem_singleton.mp hchunk
    exact Nat.lt_succ_self next

/-- The consumed bytes of the first chunk are those that make the difference. -/
theorem Content.atBegin_iff (h : Content buf q) : AtBegin buf ↔ buf.written = q := by
  cases h with
  | nil => simp [AtBegin, written]
  | @cons first rest offset hoffset hrest =>
    simp only [AtBegin, List.head?_cons, Option.some.injEq, forall_eq', Chunk.begin, Pos.mk.injEq, true_and, written,
      List.map_cons, List.flatten_cons, List.append_cancel_right_eq]
    constructor
    · rintro rfl
      rfl
    · intro heq
      have hlen := congrArg List.length heq
      simp only [List.length_drop, Chunk.dataSize] at hlen hoffset
      omega

theorem Shows.data (h : Shows next buf q) :
    ∃ next' buf', data next buf = some (next', buf', buf.written) ∧ next ≤ next' ∧
      (AtBegin buf → Shows next' buf' q) := by
  by_cases hlen : 1 < buf.chunks.length
  · refine ⟨_, _, by rw [MojBuffer.data, consolidate_of_lt hlen]; rfl, Nat.le_succ next, fun hbegin => ?_⟩
    exact h.content.atBegin_iff.mp hbegin ▸ shows_written next buf
  · refine ⟨next, buf, ?_, le_rfl, fun _ => h⟩
    rw [MojBuffer.data, consolidate_of_le (by omega)]
    obtain ⟨chunks, readPos⟩ := buf
    match chunks with
    | [] => rfl
    | [chunk] => simp [written]
    | _ :: _ :: _ => simp at hlen

theorem Shows.release (h : Shows next buf q) :
    ∃ next' buf' chunk, release next buf = some (next', buf', chunk) ∧ next ≤ next' ∧
      chunk.elim [] Chunk.data = buf.written ∧ Shows next' buf' [] := by
  by_cases hlen : 1 < buf.chunks.length
  · refine ⟨_, _, _, by rw [MojBuffer.release, consolidate_of_lt hlen]; rfl, Nat.le_succ next, rfl, shows_nil ?_ rfl⟩
    intro pos hpos
    cases hpos
    exact Nat.lt_succ_self next
  · rw [MojBuffer.release, consolidate_of_le (by omega)]
    obtain ⟨chunks, readPos⟩ := buf
    match chunks with
    | [] => exact ⟨next, _, _, rfl, le_rfl, rfl, shows_nil (h.released rfl) rfl⟩
    | [chunk] =>
      refine ⟨next, _, _, rfl, le_rfl, by simp [written], shows_nil (fun pos hpos => ?_) rfl⟩
      cases h.content
      cases hpos
      exact h.known chunk (List.mem_singleton_self chunk)
    | _ :: _ :: _ => simp at hlen

end MojBuffer

end Db8
