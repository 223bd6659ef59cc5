import LiteOLAP.ForStd.KeyMap
import LiteOLAP.ForStd.WorkPool
import LiteOLAP.Native.Ast
import LiteOLAP.Native.Expression
import LiteOLAP.Native.Operator

/-!
# Hash aggregation

`execution/hash_aggregate.{h,cpp}`: workers draw input batches from a shared cursor and build
their own groups; the partial groups are merged by key string, and `Next` hands out one row
per group.

A worker's `groups` vector and the `index` from key strings to positions in it are one
insertion-ordered map.
-/

namespace LiteOLAP

open Bytes (leBytes)

/-- One component of a group key: a tag byte, then the raw bytes of a number or a string
    between separators. -/
def keyPart : Value → Bytes
  | .null => [0]
  | .int32 x => 1 :: leBytes 4 x.toUInt32.toNat
  | .int64 x => 1 :: leBytes 8 x.toUInt64.toNat
  | .double x => 1 :: leBytes 8 x.bits.toNat
  | .string s => 1 :: 2 :: (s ++ [3])

/-- `KeyString`: serializes a group's key values into a byte string for hashing. -/
def keyString (key : List Value) : Bytes := key.flatMap keyPart

/-- `AsDoubleVal`. -/
def asDoubleVal (v : Value) : Except Exc Double := asDouble v

/-- `AsI64Val`. -/
def asI64Val (v : Value) : Except Exc Int64 := asI64 v

/-- One aggregate to compute. -/
structure AggSpec where
  kind : AggKind
  /-- Per-row argument (absent for `COUNT(*)`). -/
  inputExpr : Option BoundExpr
  inputType : ColumnType
  outputType : ColumnType
  outputName : Bytes
  deriving Repr

/-- An accumulator. -/
structure Acc where
  count : Int64 := 0
  nonnull : Int64 := 0
  isum : Int64 := 0
  dsum : Double := .zero
  minv : Value := .null
  maxv : Value := .null
  deriving DecidableEq, Repr

structure GroupState where
  key : List Value
  accs : List Acc
  deriving DecidableEq, Repr

/-- A worker's groups, by key string. -/
abbrev Groups := KeyMap Bytes GroupState

namespace HashAggregate

/-- `IsNull(best) || CompareValues(v, best) == wanted`, then `best = v`. -/
def keepBest (wanted : Ordering) (best v : Value) : Except Exc Value :=
  if best.isNull then .ok v
  else do
    let c ← compareValues v best
    return if c == wanted then v else best

/-- The body of the loop in `UpdateGroup`. -/
def updateAcc (spec : AggSpec) (acc : Acc) (chunk : DataChunk) (row : Nat) : Except Exc Acc :=
  if spec.kind = .countStar then .ok { acc with count := acc.count + 1 }
  else
    match spec.inputExpr with
    | none => .error .undefinedBehaviour
    | some e => do
      let v ← evalExprRow e chunk row
      if v.isNull then return acc
      let acc := { acc with nonnull := acc.nonnull + 1 }
      match spec.kind with
      | .countStar | .count => return acc
      | .sum =>
        if spec.inputType = .float then
          let d ← asDoubleVal v
          return { acc with dsum := acc.dsum + d }
        else
          let i ← asI64Val v
          return { acc with isum := acc.isum + i }
      | .avg =>
        let d ← asDoubleVal v
        return { acc with dsum := acc.dsum + d }
      | .min =>
        let m ← keepBest .lt acc.minv v
        return { acc with minv := m }
      | .max =>
        let m ← keepBest .gt acc.maxv v
        return { acc with maxv := m }

/-- `UpdateGroup`. -/
def updateGroup (aggs : List AggSpec) (g : GroupState) (chunk : DataChunk) (row : Nat) :
    Except Exc GroupState := do
  let accs ← (aggs.zip g.accs).mapM fun (spec, acc) => updateAcc spec acc chunk row
  return { g with accs }

/-- `ProcessRow`: folds one row into the groups. -/
def processRow (groupIndices : List Nat) (aggs : List AggSpec) (groups : Groups)
    (chunk : DataChunk) (row : Nat) : Except Exc Groups := do
  let key ← groupIndices.mapM fun gi => chunk.getValue gi row
  let ks := keyString key
  let g := (groups.find? ks).getD ⟨key, List.replicate aggs.length {}⟩
  let g ← updateGroup aggs g chunk row
  return groups.insert ks g

/-- The loop of a worker over the rows of one batch. -/
def processChunk (groupIndices : List Nat) (aggs : List AggSpec) (groups : Groups)
    (chunk : DataChunk) : Except Exc Groups :=
  (List.range chunk.cardinality).foldlM
    (fun groups row => processRow groupIndices aggs groups chunk row) groups

/-- `!IsNull(src) && (IsNull(dst) || CompareValues(src, dst) == wanted)`, then `dst = src`. -/
def mergeBest (wanted : Ordering) (dst src : Value) : Except Exc Value :=
  if src.isNull then .ok dst else keepBest wanted dst src

/-- `MergeAcc`: field-wise merge. -/
def mergeAcc (dst src : Acc) : Except Exc Acc := do
  let minv ← mergeBest .lt dst.minv src.minv
  let maxv ← mergeBest .gt dst.maxv src.maxv
  return {
    count := dst.count + src.count
    nonnull := dst.nonnull + src.nonnull
    isum := dst.isum + src.isum
    dsum := dst.dsum + src.dsum
    minv, maxv }

/-- Merge one group of a worker into the final groups. -/
def mergeGroup (groups : Groups) (g : GroupState) : Except Exc Groups :=
  let ks := keyString g.key
  match groups.find? ks with
  | none => .ok (groups.insert ks g)
  | some dst => do
    let accs ← (dst.accs.zip g.accs).mapM fun (d, s) => mergeAcc d s
    return groups.insert ks { dst with accs }

/-- Merge the workers' groups, worker by worker. -/
def mergePartials (partials : List Groups) : Except Exc Groups :=
  partials.foldlM (fun groups pr => (pr.entries.map Prod.snd).foldlM mergeGroup groups) .empty

/-- `Finalize`. -/
def finalize (spec : AggSpec) (a : Acc) : Value :=
  match spec.kind with
  | .countStar => .int64 a.count
  | .count => .int64 a.nonnull
  | .sum =>
    if a.nonnull == 0 then .null
    else if spec.inputType = .float then .double a.dsum
    else .int64 a.isum
  | .avg => if a.nonnull == 0 then .null else .double (a.dsum / .ofInt a.nonnull.toInt)
  | .min => a.minv
  | .max => a.maxv

/-- An exception that leaves a worker thread ends the process. -/
def inThread {α : Type} : Except Exc α → Except Exc α
  | .error .undefinedBehaviour => .error .undefinedBehaviour
  | .error _ => .error .terminate
  | .ok a => .ok a

/-- The number of workers on a machine with `hw` hardware threads (`0` if unknown). -/
def numWorkers (hw : Nat) (inputs : List DataChunk) : Nat :=
  min (if hw = 0 then 4 else hw) inputs.length

end HashAggregate

/-- The operator between two `Next` calls. -/
structure HashAggregate where
  aggs : List AggSpec
  outputTypes : List ColumnType
  groups : List GroupState
  cursor : Nat

namespace HashAggregate

/-- Drain the child fully so chunks can be aggregated in parallel. -/
def drainChild (child : BatchStream) : Except Exc (List DataChunk) :=
  child.forEach (fun inputs b => .ok (inputs ++ [b])) []

/-- `Open` once the workers have built their groups. -/
def openMerged (groupIndices : List Nat) (groupTypes : List ColumnType) (aggs : List AggSpec)
    (partials : List Groups) : Except Exc HashAggregate := do
  let merged ← mergePartials partials
  let groups := merged.entries.map Prod.snd
  -- no GROUP BY over empty input still yields one row
  let groups :=
    if groupIndices.isEmpty && groups.isEmpty then [⟨[], List.replicate aggs.length {}⟩]
    else groups
  return { aggs, outputTypes := groupTypes ++ aggs.map (·.outputType), groups, cursor := 0 }

/-- `Open` under a schedule: batch `i` goes to worker `assign i`, modulo the number of
    workers. -/
def «open» (child : BatchStream) (groupIndices : List Nat) (groupTypes : List ColumnType)
    (aggs : List AggSpec) (hw : Nat) (assign : Nat → Nat) : Except Exc HashAggregate := do
  let inputs ← drainChild child
  let n := numWorkers hw inputs
  let partials ← (List.range n).mapM fun w =>
    inThread (WorkPool.runWorker (processChunk groupIndices aggs) inputs (assign · % n) .empty w)
  openMerged groupIndices groupTypes aggs partials

/-- The output row of a group. -/
def outputRow (aggs : List AggSpec) (g : GroupState) : Row :=
  g.key ++ List.zipWith finalize aggs g.accs

/-- `Next`. -/
def next (h : HashAggregate) : Except Exc (DataChunk × HashAggregate) :=
  if h.groups.length ≤ h.cursor then .ok (DataChunk.init h.outputTypes, h)
  else do
    let take := min kVectorSize (h.groups.length - h.cursor)
    let out ← (DataChunk.init h.outputTypes).appendRows
      (((h.groups.drop h.cursor).take take).map (outputRow h.aggs))
    return (out, { h with cursor := h.cursor + take })

end HashAggregate

end LiteOLAP
