import LiteOLAP.Native.Catalog
import LiteOLAP.Native.ColumnStream
import LiteOLAP.Native.HashAggregate

/-!
# Scans

`execution/column_scan.{h,cpp}`: the chosen columns of a table, chunk by chunk, with an optional
range on one of them that lets chunks be skipped by their zone maps.

`Open` decodes all row groups. Its workers take them off a shared cursor and each writes the slot
of its row group, and the slots are put together in row-group order; the pool they share is a
transparent cache, so here they run one after the other.
-/

namespace LiteOLAP

open Bytes (ofAscii)

/-- The range predicate `lo <= col <= hi` on the scan-output column at a position. -/
structure ZoneFilter where
  pos : Nat
  lo : Int64
  hi : Int64
  deriving DecidableEq, Repr

structure ColumnScan where
  table : TableMeta
  colIdx : List Nat
  outputNames : List Bytes
  outputTypes : List ColumnType
  zone : Option ZoneFilter

namespace ColumnScan

/-- The name of a column in the scan's output. -/
def outputName (tableAlias name : Bytes) : Bytes :=
  if tableAlias = [] then name else tableAlias ++ ofAscii "." ++ name

/-- The constructor. -/
def create (table : TableMeta) (tableAlias : Bytes) (columnIndices : List Nat) :
    Except Exc ColumnScan := do
  let cols ← columnIndices.mapM table.schema.getColumn
  return {
    table, colIdx := columnIndices
    outputNames := cols.map fun c => outputName tableAlias c.name
    outputTypes := cols.map (·.type)
    zone := none }

/-- `SetZoneFilter`. -/
def setZoneFilter (s : ColumnScan) (scanPos : Nat) (lo hi : Int64) : ColumnScan :=
  { s with zone := some ⟨scanPos, lo, hi⟩ }

/-- A reader on the column of a row group. -/
def openReader (s : ColumnScan) (g : RowGroup) (tableCol : Nat) :
    EStateM Exc BufferPool ColumnReader :=
  match g.columnRoots[tableCol]? with
  | none => throw .undefinedBehaviour
  | some root => do
    let col ← EStateM.ofExcept (s.table.schema.getColumn tableCol)
    ColumnReader.create root col.type

/-- The zone map of a chunk rules out every value of the range. -/
def excludes (z : ZoneFilter) (m : ChunkMeta) : Bool :=
  m.hasZoneMap != 0 && (m.maxValue < z.lo || z.hi < m.minValue)

/-- The readers' current chunks can be skipped. -/
def canSkip (s : ColumnScan) (readers : List ColumnReader) : Except Exc Bool :=
  match s.zone with
  | none => .ok false
  | some z =>
    match readers[z.pos]? with
    | none => .error .undefinedBehaviour
    | some r => .ok (excludes z r.chunkMeta)

/-- Vectors that were decoded, as one chunk with the given number of rows. A batch whose columns
    disagree has rows that are read past the end of some column. -/
def chunkOf (columns : List Vector) (rows : Nat) : Except Exc DataChunk :=
  if h : ∀ v ∈ columns, v.values.length = rows then .ok ⟨columns, rows, h⟩
  else .error .undefinedBehaviour

/-- Decode the readers' current chunks into vectors of the given types. -/
def decodeColumns (types : List ColumnType) (readers : List ColumnReader) :
    EStateM Exc BufferPool (List (Vector × ColumnReader)) :=
  (types.zip readers).mapM fun (t, r) => r.decode (Vector.empty t)

/-- The loop of `decode_rg`. Every round consumes a header of the first column's stream, so that
    it ends within as many rounds as the file has bytes. -/
def decodeLoop (s : ColumnScan) : (fuel : Nat) → List ColumnReader →
    EStateM Exc BufferPool (List DataChunk)
  | 0, _ => throw .diverges
  | _ + 1, [] => throw .undefinedBehaviour
  | fuel + 1, r :: rs => do
    let (more, r) ← r.nextChunk
    if !more then pure []
    else do
      let rs ← rs.mapM fun r => do
        let (_, r) ← r.nextChunk
        pure r
      if ← EStateM.ofExcept (s.canSkip (r :: rs)) then
        let readers ← (r :: rs).mapM ColumnReader.skipPayload
        decodeLoop s fuel readers
      else do
        let decoded ← decodeColumns s.outputTypes (r :: rs)
        let chunk ← EStateM.ofExcept (chunkOf (decoded.map Prod.fst) r.chunkMeta.numRows)
        let rest ← decodeLoop s fuel (decoded.map Prod.snd)
        pure (chunk :: rest)

/-- `decode_rg`: the chunks of one row group. -/
def decodeRg (s : ColumnScan) (g : RowGroup) : EStateM Exc BufferPool (List DataChunk) := do
  let readers ← s.colIdx.mapM (s.openReader g)
  let bp ← get
  decodeLoop s (bp.disk.numPages * payloadCapacity + 1) readers

/-- An exception that leaves a worker thread ends the process. -/
def inThread {α : Type} (x : EStateM Exc BufferPool α) : EStateM Exc BufferPool α := fun bp =>
  match x bp with
  | .ok a bp' => .ok a bp'
  | .error .undefinedBehaviour bp' => .error .undefinedBehaviour bp'
  | .error .diverges bp' => .error .diverges bp'
  | .error _ bp' => .error .terminate bp'

/-- `Open`: the chunks of all row groups in order, as the batches `Next` hands out. -/
def «open» (s : ColumnScan) : EStateM Exc BufferPool BatchStream := do
  let perRg ← s.table.rowGroups.mapM fun g => inThread (s.decodeRg g)
  pure ⟨s.outputTypes, perRg.flatten, none⟩

/-- A worker that has taken row group `rg` fills its slot. -/
def fillSlot (s : ColumnScan) (perRg : List (List DataChunk)) (rg : Nat) :
    EStateM Exc BufferPool (List (List DataChunk)) :=
  match s.table.rowGroups[rg]? with
  | none => throw .undefinedBehaviour
  | some g => do
    let out ← inThread (s.decodeRg g)
    pure (perRg.set rg out)

/-- The slots of the given row groups are filled, in this order. -/
def fillSlots (s : ColumnScan) (order : List Nat) (perRg : List (List DataChunk)) :
    EStateM Exc BufferPool (List (List DataChunk)) :=
  order.foldlM s.fillSlot perRg

/-- `Open`, when the workers get their row groups decoded in the given order. -/
def openScheduled (s : ColumnScan) (order : List Nat) : EStateM Exc BufferPool BatchStream := do
  let perRg ← s.fillSlots order (List.replicate s.table.rowGroups.length [])
  pure ⟨s.outputTypes, perRg.flatten, none⟩

end ColumnScan

end LiteOLAP
