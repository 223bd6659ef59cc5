import LiteOLAP.ForStd.KeyMap
import LiteOLAP.Native.Operator

/-!
# Hash join

`execution/hash_join.{h,cpp}`: `Open` materializes the right side and indexes its keys; `Next`
is a resumable probe that fills output batches of `kVectorSize` rows from the left side.
-/

namespace LiteOLAP

/-- `KeyOf`: serializes a single join-key value into a hashable string. -/
def keyOf : Value → Bytes
  | .null => []
  | .int32 x => 105 :: Bytes.leBytes 4 x.toUInt32.toNat
  | .int64 x => 73 :: Bytes.leBytes 8 x.toUInt64.toNat
  | .double x => 100 :: Bytes.leBytes 8 x.bits.toNat
  | .string s => 115 :: s

/-- The build side, fully materialized: the rows and, for each key, the positions of the
    rows that have it. -/
structure HashTable where
  buildRows : List Row
  buildIndex : KeyMap Bytes (List UInt32)

namespace HashTable

def empty : HashTable := ⟨[], KeyMap.empty⟩

/-- `build_index_[ks].push_back(static_cast<std::uint32_t>(build_rows_.size()))`, unless the
    key is NULL, then `build_rows_.push_back(row)`. -/
def addRow (rightKey : Nat) (t : HashTable) (row : Row) : Except Exc HashTable :=
  match row[rightKey]? with
  | none => .error .undefinedBehaviour
  | some key =>
    let index :=
      if key.isNull then t.buildIndex
      else t.buildIndex.insert (keyOf key)
        ((t.buildIndex.find? (keyOf key)).getD [] ++ [UInt32.ofNat t.buildRows.length])
    .ok ⟨t.buildRows ++ [row], index⟩

/-- The match list of a probe key, if it has one. -/
def probe (t : HashTable) (key : Value) : Option (List UInt32) :=
  if key.isNull then none else t.buildIndex.find? (keyOf key)

end HashTable

/-- The operator between two `Next` calls. -/
structure HashJoin where
  left : BatchStream
  rightTypes : List ColumnType
  leftKey : Nat
  table : HashTable
  lchunk : DataChunk
  lpos : Nat
  leftDone : Bool
  matches_ : Option (List UInt32)
  mpos : Nat

namespace HashJoin

/-- Build phase, then probe phase setup. -/
def «open» (left right : BatchStream) (leftKey rightKey : Nat) : Except Exc HashJoin := do
  let table ← right.forEach (fun t b => b.rows.foldlM (HashTable.addRow rightKey) t) .empty
  return {
    left, rightTypes := right.types, leftKey, table
    lchunk := DataChunk.init left.types, lpos := 0, leftDone := false
    matches_ := none, mpos := 0 }

/-- Scan `n` left rows from `lpos` on for one whose key has matches: its position and its
    match list. -/
def scanChunk (t : HashTable) (leftKey : Nat) (chunk : DataChunk) :
    (n lpos : Nat) → Except Exc (Option (Nat × List UInt32))
  | 0, _ => .ok none
  | n + 1, lpos => do
    let key ← chunk.getValue leftKey lpos
    match t.probe key with
    | some ms => return some (lpos, ms)
    | none => scanChunk t leftKey chunk n (lpos + 1)

/-- The loop of `AdvanceProbeRow`; `batches` are the left batches that are still to come. -/
def advanceLoop (j : HashJoin) (batches : List DataChunk) : Except Exc (Bool × HashJoin) := do
  let found ← scanChunk j.table j.leftKey j.lchunk (j.lchunk.cardinality - j.lpos) j.lpos
  match found with
  | some (lpos, ms) => return (true, { j with lpos, matches_ := some ms, mpos := 0 })
  | none =>
    if j.leftDone then return (false, { j with lpos := max j.lpos j.lchunk.cardinality })
    else
      match batches with
      | b :: bs =>
        let left := { j.left with batches := bs }
        if b.cardinality = 0 then
          return (false, { j with left, lchunk := b, lpos := 0, leftDone := true })
        else advanceLoop { j with left, lchunk := b, lpos := 0 } bs
      | [] =>
        match j.left.fail with
        | some e => throw e
        | none =>
          return (false, { j with
            lchunk := DataChunk.init j.left.types, lpos := 0, leftDone := true })
termination_by structural batches

/-- Loads the next left row's match list; false at end. -/
def advanceProbeRow (j : HashJoin) : Except Exc (Bool × HashJoin) :=
  j.advanceLoop j.left.batches

/-- The head of the loop in `Next`: when the current left row's matches are used up, move on to
    the next left row that has some. -/
def nextMatch (j : HashJoin) : Except Exc (Bool × HashJoin) :=
  match j.matches_ with
  | some ms =>
    if ms.length ≤ j.mpos then advanceProbeRow { j with lpos := j.lpos + 1, matches_ := none }
    else .ok (true, j)
  | none => advanceProbeRow j

/-- The loop in `Next`, with room for `room` more rows in `out`. -/
def fill : (room : Nat) → HashJoin → DataChunk → Except Exc (DataChunk × HashJoin)
  | 0, j, out => .ok (out, j)
  | room + 1, j, out => do
    let (more, j) ← j.nextMatch
    if !more then return (out, j)
    match (j.matches_.getD [])[j.mpos]? with
    | none => throw .undefinedBehaviour
    | some buildIdx =>
      match j.table.buildRows[buildIdx.toNat]? with
      | none => throw .undefinedBehaviour
      | some rrow =>
        let out ← out.appendRow (j.lchunk.row j.lpos ++ rrow)
        fill room { j with mpos := j.mpos + 1 } out

/-- `Next`. -/
def next (j : HashJoin) : Except Exc (DataChunk × HashJoin) :=
  fill kVectorSize j (DataChunk.init (j.left.types ++ j.rightTypes))

end HashJoin

end LiteOLAP
