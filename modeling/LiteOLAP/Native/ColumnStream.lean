import LiteOLAP.Native.Encoding
import LiteOLAP.Native.PagedStream

/-!
# Columns on disk

`column/column_writer.{h,cpp}` and `column/column_reader.{h,cpp}`: a column as a paged stream of
chunks of `kChunkRows` rows, each behind a header of 32 bytes.
-/

namespace LiteOLAP

open Bytes (ofAscii leBytes ofLeBytes)

/-- Logical rows per column chunk. -/
def kChunkRows : Nat := 2048

/-- Per-chunk metadata, as the header holds it. -/
structure ChunkMeta where
  numRows : Nat
  /-- The disk byte of the encoding. -/
  encoding : Nat
  hasZoneMap : Nat
  reserved : Nat
  nullCount : Nat
  /-- Encoded payload bytes following this header. -/
  byteLength : Nat
  minValue : Int64
  maxValue : Int64
  deriving DecidableEq, Repr

namespace ChunkMeta

/-- The metadata of an encoded chunk. The length of the payload is cut to 32 bits. -/
def ofChunk (c : EncodedChunk) : ChunkMeta where
  numRows := c.numRows
  encoding := c.encoding.toByte.toNat
  hasZoneMap := if c.hasZoneMap then 1 else 0
  reserved := 0
  nullCount := c.nullCount
  byteLength := c.payload.length % 2 ^ 32
  minValue := c.minValue
  maxValue := c.maxValue

/-- The fields of the header in their order, each as its bytes. -/
def fields (m : ChunkMeta) : List Bytes :=
  [leBytes 4 m.numRows, leBytes 1 m.encoding, leBytes 1 m.hasZoneMap, leBytes 2 m.reserved,
    leBytes 4 m.nullCount, leBytes 4 m.byteLength, leBytes 8 m.minValue.toUInt64.toNat,
    leBytes 8 m.maxValue.toUInt64.toNat]

end ChunkMeta

structure ColumnWriter where
  type : ColumnType
  out : PagedOutputStream
  buffer : List Value
  finished : Bool

namespace ColumnWriter

/-- The constructor. -/
def create (type : ColumnType) : EStateM Exc BufferPool ColumnWriter := do
  let out ← PagedOutputStream.create
  pure ⟨type, out, [], false⟩

/-- `FlushChunk`. -/
def flushChunk (w : ColumnWriter) : EStateM Exc BufferPool ColumnWriter :=
  if w.buffer = [] then pure w
  else do
    let c ← EStateM.ofExcept (encodeChunk w.type w.buffer)
    let out ← ((ChunkMeta.ofChunk c).fields ++ [c.payload]).foldlM PagedOutputStream.write w.out
    pure { w with out, buffer := [] }

/-- `Append`. -/
def append (w : ColumnWriter) (v : Value) : EStateM Exc BufferPool ColumnWriter :=
  if w.finished then throw (.logicError (ofAscii "ColumnWriter::Append after Finish"))
  else
    let w := { w with buffer := w.buffer ++ [v] }
    if kChunkRows ≤ w.buffer.length then flushChunk w else pure w

/-- `Finish`: the first page of the column's stream. -/
def finish (w : ColumnWriter) : EStateM Exc BufferPool PageId :=
  if w.finished then throw (.logicError (ofAscii "ColumnWriter::Finish called twice"))
  else do
    let w ← flushChunk w
    let (root, _) ← w.out.finish
    pure root

end ColumnWriter

structure ColumnReader where
  inp : PagedInputStream
  type : ColumnType
  chunkMeta : ChunkMeta
  payloadConsumed : Bool

namespace ColumnReader

/-- The constructor. -/
def create (firstPage : PageId) (type : ColumnType) : EStateM Exc BufferPool ColumnReader := do
  let inp ← PagedInputStream.create firstPage
  pure ⟨inp, type, ⟨0, 0, 0, 0, 0, 0, 0, 0⟩, true⟩

/-- `SkipPayload`. -/
def skipPayload (r : ColumnReader) : EStateM Exc BufferPool ColumnReader :=
  if r.payloadConsumed then pure r
  else do
    let (_, inp) ← r.inp.advance r.chunkMeta.byteLength
    pure { r with inp, payloadConsumed := true }

/-- `ReadPod` of an unsigned integer of `w` bytes. -/
def readPod (w : Nat) (inp : PagedInputStream) : EStateM Exc BufferPool (Nat × PagedInputStream) := do
  let (bytes, inp) ← inp.advance w
  pure (ofLeBytes bytes, inp)

/-- The header at the reader's place. -/
def readMeta (inp : PagedInputStream) : EStateM Exc BufferPool (ChunkMeta × PagedInputStream) := do
  let (numRows, inp) ← readPod 4 inp
  let (encoding, inp) ← readPod 1 inp
  let (hasZoneMap, inp) ← readPod 1 inp
  let (reserved, inp) ← readPod 2 inp
  let (nullCount, inp) ← readPod 4 inp
  let (byteLength, inp) ← readPod 4 inp
  let (minValue, inp) ← readPod 8 inp
  let (maxValue, inp) ← readPod 8 inp
  pure (⟨numRows, encoding, hasZoneMap, reserved, nullCount, byteLength,
    (UInt64.ofNat minValue).toInt64, (UInt64.ofNat maxValue).toInt64⟩, inp)

/-- `NextChunk`: advance to the next chunk's header; `false` at the end of the stream. -/
def nextChunk (r : ColumnReader) : EStateM Exc BufferPool (Bool × ColumnReader) := do
  let r ← r.skipPayload
  if r.inp.atEnd then pure (false, r)
  else do
    let (chunkMeta, inp) ← readMeta r.inp
    pure (true, { r with inp, chunkMeta, payloadConsumed := false })

/-- `DecodeChunk` on the byte that the header has for the encoding. -/
def decodePayload (r : ColumnReader) (payload : Bytes) (out : Vector) : Except Exc Vector :=
  match Encoding.ofByte r.chunkMeta.encoding with
  | some enc => decodeChunk r.type enc r.chunkMeta.numRows payload out
  | none => .error (.runtimeError (ofAscii "DecodeChunk: unknown encoding"))

/-- `Decode`: the current chunk's rows, behind those of `out`. -/
def decode (r : ColumnReader) (out : Vector) :
    EStateM Exc BufferPool (Vector × ColumnReader) := do
  let (payload, inp) ← r.inp.advance r.chunkMeta.byteLength
  let out ← EStateM.ofExcept (r.decodePayload payload out)
  pure (out, { r with inp, payloadConsumed := true })

end ColumnReader

end LiteOLAP
