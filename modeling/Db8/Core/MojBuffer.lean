import Db8.Core.MojObject

/-!
# Core.MojBuffer

The byte buffer behind the object writers: a list of chunks that fill up one after the other,
and a read position in the first of them.

* `Chunk`              — a piece of storage with the bytes written to it so far.
* `Pos`                — a pointer to a byte of a chunk.
* `MojBuffer`          — the chunks and `m_readPos`.
* `write`, `advance`, `iovec`, `data`, `toByteVec`, `release`, `assign`, … — the functions of the source.
* `Op`, `step`, `run`  — operations on any number of buffers.

A function returns `none` where the source asserts or follows a pointer that is not into the
chunk it is used with. Allocation succeeds, and gives a chunk that no pointer leads to yet.
-/

namespace Db8

namespace MojBuffer

/-- A chunk, with its address. -/
structure Chunk where
  id : Nat
  data : List MojByte
  size : Nat
  deriving DecidableEq

/-- A pointer into the bytes of a chunk: its address and the distance from its begin. -/
structure Pos where
  id : Nat
  offset : Nat
  deriving DecidableEq

namespace Chunk

def dataSize (chunk : Chunk) : Nat := chunk.data.length

def freeSpace (chunk : Chunk) : Nat := chunk.size - chunk.dataSize

/-- The pointer `chunk->data()`. -/
def begin (chunk : Chunk) : Pos := ⟨chunk.id, 0⟩

def write (chunk : Chunk) (bytes : List MojByte) : Option Chunk :=
  if bytes.length ≤ chunk.freeSpace then some { chunk with data := chunk.data ++ bytes } else none

/-- The pointer is to a byte of the chunk or to their end. -/
def Holds (chunk : Chunk) (pos : Pos) : Prop := pos.id = chunk.id ∧ pos.offset ≤ chunk.dataSize

instance (chunk : Chunk) (pos : Pos) : Decidable (chunk.Holds pos) := inferInstanceAs (Decidable (_ ∧ _))

/-- The bytes between the pointer and `dataEnd()`. -/
def bytesFrom (chunk : Chunk) : Option Pos → Option (List MojByte)
  | none => none
  | some pos => if chunk.Holds pos then some (chunk.data.drop pos.offset) else none

end Chunk

end MojBuffer

structure MojBuffer where
  chunks : List MojBuffer.Chunk
  readPos : Option MojBuffer.Pos
  deriving DecidableEq

namespace MojBuffer

def ChunkSize : Nat := 4096

/-- `sizeof(Chunk)`: three pointers and the two of the list entry. -/
def sizeofChunk : Nat := 40

def new : MojBuffer := ⟨[], none⟩

def empty (buf : MojBuffer) : Bool :=
  match buf.readPos with
  | none => true
  | some pos =>
    match buf.chunks with
    | [chunk] => pos = ⟨chunk.id, chunk.dataSize⟩
    | _ => false

/-- The chunks with the pointer that reading them begins at. -/
def based (buf : MojBuffer) : List (Option Pos × Chunk) :=
  match buf.chunks with
  | [] => []
  | first :: rest => (buf.readPos, first) :: rest.map fun chunk => (some chunk.begin, chunk)

def iovecLoop : List (Option Pos × Chunk) → Nat → Option (List (List MojByte))
  | [], _ => some []
  | _ :: _, 0 => some []
  | (base, chunk) :: rest, vecSize + 1 => do
    let bytes ← chunk.bytesFrom base
    if 0 < bytes.length then
      let vec ← iovecLoop rest vecSize
      some (bytes :: vec)
    else
      iovecLoop rest (vecSize + 1)

/-- The segments that are put in a vector of `vecSize` entries. -/
def iovec (buf : MojBuffer) (vecSize : Nat) : Option (List (List MojByte)) := iovecLoop buf.based vecSize

def toByteVecLoop : List (Option Pos × Chunk) → Option (List MojByte)
  | [] => some []
  | (base, chunk) :: rest => do
    let bytes ← chunk.bytesFrom base
    let vec ← toByteVecLoop rest
    some (bytes ++ vec)

def toByteVec (buf : MojBuffer) : Option (List MojByte) := toByteVecLoop buf.based

/-- `m_readPos` after `pop`, of the chunks that are left. -/
def poppedPos (chunks : List Chunk) : Option Pos := chunks.head?.map Chunk.begin

def clearLoop : List Chunk → Option Pos → MojBuffer
  | [], readPos => ⟨[], readPos⟩
  | _ :: chunks, _ => clearLoop chunks (poppedPos chunks)

def clear (buf : MojBuffer) : MojBuffer := clearLoop buf.chunks buf.readPos

def advanceLoop : List Chunk → Option Pos → Nat → Option MojBuffer
  | chunks, readPos, 0 => some ⟨chunks, readPos⟩
  | [], _, _ + 1 => none
  | chunk :: chunks, readPos, size + 1 => do
    let pos ← readPos.filter fun pos => chunk.Holds pos
    let advanceSize := min (size + 1) (chunk.dataSize - pos.offset)
    if 0 < size + 1 - advanceSize then
      advanceLoop chunks (poppedPos chunks) (size + 1 - advanceSize)
    else
      some ⟨chunk :: chunks, some ⟨pos.id, pos.offset + advanceSize⟩⟩

def advance (buf : MojBuffer) (size : Nat) : Option MojBuffer := advanceLoop buf.chunks buf.readPos size

/-- The chunk to write to is the last one of the result; `next` is where a new chunk comes. -/
def writeableChunk (next : Nat) (buf : MojBuffer) (requestedSize : Nat) : Nat × MojBuffer :=
  if buf.chunks.getLast?.any fun chunk => 0 < chunk.freeSpace then
    (next, buf)
  else
    let chunk : Chunk := ⟨next, [], max requestedSize (ChunkSize - sizeofChunk)⟩
    (next + 1, ⟨buf.chunks ++ [chunk], buf.readPos.or (some chunk.begin)⟩)

/-- Write to the last chunk as much as it has room for, and what is then left to write. -/
def writeChunk (buf : MojBuffer) (bytes : List MojByte) : Option (MojBuffer × List MojByte) := do
  let chunk ← buf.chunks.getLast?
  let chunkSize := min bytes.length chunk.freeSpace
  let chunk' ← chunk.write (bytes.take chunkSize)
  some (⟨buf.chunks.dropLast ++ [chunk'], buf.readPos⟩, bytes.drop chunkSize)

/-- The loop of `write`, for at most `fuel` rounds. -/
def writeLoop : Nat → Nat → MojBuffer → List MojByte → Option (Nat × MojBuffer)
  | _, next, buf, [] => some (next, buf)
  | 0, _, _, _ :: _ => none
  | fuel + 1, next, buf, b :: bytes => do
    let (next, buf) := writeableChunk next buf (b :: bytes).length
    let (buf, rest) ← buf.writeChunk (b :: bytes)
    writeLoop fuel next buf rest

def write (next : Nat) (buf : MojBuffer) (bytes : List MojByte) : Option (Nat × MojBuffer) :=
  writeLoop bytes.length next buf bytes

def writeByte (next : Nat) (buf : MojBuffer) (b : MojByte) : Option (Nat × MojBuffer) := do
  let (next, buf) := writeableChunk next buf 1
  let chunk ← buf.chunks.getLast?
  let chunk' ← chunk.write [b]
  some (next, ⟨buf.chunks.dropLast ++ [chunk'], buf.readPos⟩)

def consolidate (next : Nat) (buf : MojBuffer) : Option (Nat × MojBuffer) :=
  if 1 < buf.chunks.length then do
    let size := (buf.chunks.map Chunk.dataSize).sum
    -- all bytes of every chunk, also those of the first that are before the read position
    let chunk ← buf.chunks.foldlM (fun chunk c => chunk.write c.data) ⟨next, [], size⟩
    some (next + 1, ⟨buf.clear.chunks ++ [chunk], some chunk.begin⟩)
  else
    some (next, buf)

/-- The bytes from `dataOut` on, none for a null pointer. -/
def data (next : Nat) (buf : MojBuffer) : Option (Nat × MojBuffer × List MojByte) := do
  let (next, buf) ← consolidate next buf
  match buf.chunks with
  | [chunk] => some (next, buf, chunk.data)
  | _ => some (next, buf, [])

def release (next : Nat) (buf : MojBuffer) : Option (Nat × MojBuffer × Option Chunk) := do
  let (next, buf) ← consolidate next buf
  match buf.chunks with
  | [] => some (next, buf, none)
  | chunk :: chunks => some (next, ⟨chunks, buf.readPos⟩, some chunk)

/-! ## Any number of buffers -/

variable {ι : Type}

inductive Op (ι : Type) where
  | write (c : ι) (bytes : List MojByte)
  | writeByte (c : ι) (b : MojByte)
  | advance (c : ι) (size : Nat)
  | empty (c : ι)
  | iovec (c : ι) (vecSize : Nat)
  | data (c : ι)
  | toByteVec (c : ι)
  | release (c : ι)
  | clear (c : ι)
  | assign (c rhs : ι)

inductive Result where
  | done
  | empty (b : Bool)
  | segments (vec : List (List MojByte))
  | bytes (bytes : List MojByte)
  | chunk (chunk : Option Chunk)
  deriving DecidableEq

structure State (ι : Type) where
  buffers : ι → MojBuffer
  next : Nat

def start (ι : Type) : State ι := ⟨fun _ => new, 0⟩

variable [DecidableEq ι]

/-- `*c = *rhs`. -/
def assign (buffers : ι → MojBuffer) (c rhs : ι) : ι → MojBuffer :=
  let buffers := Function.update buffers c (buffers c).clear
  -- `MojList::operator=` does nothing when both are one list, else it takes the chunks over
  let buffers :=
    if c = rhs then buffers
    else
      let taken := Function.update buffers c ⟨(buffers rhs).chunks, (buffers c).readPos⟩
      Function.update taken rhs ⟨[], (buffers rhs).readPos⟩
  let buffers := Function.update buffers c ⟨(buffers c).chunks, (buffers rhs).readPos⟩
  Function.update buffers rhs ⟨(buffers rhs).chunks, none⟩

def step (s : State ι) : Op ι → Option (State ι × Result)
  | .write c bytes => do
    let (next, buf) ← write s.next (s.buffers c) bytes
    some (⟨Function.update s.buffers c buf, next⟩, .done)
  | .writeByte c b => do
    let (next, buf) ← writeByte s.next (s.buffers c) b
    some (⟨Function.update s.buffers c buf, next⟩, .done)
  | .advance c size => do
    let buf ← (s.buffers c).advance size
    some (⟨Function.update s.buffers c buf, s.next⟩, .done)
  | .empty c => some (s, .empty (s.buffers c).empty)
  | .iovec c vecSize => do
    let vec ← (s.buffers c).iovec vecSize
    some (s, .segments vec)
  | .data c => do
    let (next, buf, bytes) ← data s.next (s.buffers c)
    some (⟨Function.update s.buffers c buf, next⟩, .bytes bytes)
  | .toByteVec c => do
    let bytes ← (s.buffers c).toByteVec
    some (s, .bytes bytes)
  | .release c => do
    let (next, buf, chunk) ← release s.next (s.buffers c)
    some (⟨Function.update s.buffers c buf, next⟩, .chunk chunk)
  | .clear c => some (⟨Function.update s.buffers c (s.buffers c).clear, s.next⟩, .done)
  | .assign c rhs => some (⟨assign s.buffers c rhs, s.next⟩, .done)

end MojBuffer

end Db8
