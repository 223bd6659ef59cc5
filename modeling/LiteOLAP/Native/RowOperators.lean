import LiteOLAP.Native.Expression
import LiteOLAP.Native.Operator

/-!
# Filter, Projection, OrderBy and Limit

`execution/filter.cpp`, `projection.cpp`, `order_by.cpp` and `limit.cpp`, each as the state
between two `Next` calls.
-/

namespace LiteOLAP

namespace BatchStream

/-- What `n` calls of `next` deliver, up to the first batch of 0 rows. -/
def drain {σ : Type} (next : σ → Except Exc (DataChunk × σ)) :
    (n : Nat) → σ → List DataChunk × Option Exc
  | 0, _ => ([], some .diverges)
  | n + 1, st =>
    match next st with
    | .error e => ([], some e)
    | .ok (c, st') =>
      if c.cardinality = 0 then ([], none)
      else
        let (cs, fail) := drain next n st'
        (c :: cs, fail)

/-- An open operator as the batches it has to deliver, when `n` calls of its `next` reach its
    end. -/
def ofNext {σ : Type} (types : List ColumnType) (next : σ → Except Exc (DataChunk × σ)) (n : Nat)
    (st : σ) : BatchStream :=
  let (batches, fail) := drain next n st
  ⟨types, batches, fail⟩

end BatchStream

/-! ## Filter -/

structure Filter where
  child : BatchStream
  predicate : BoundExpr

namespace Filter

/-- The positions that a mask keeps. -/
def kept (mask : List Bool) : List Nat :=
  (List.range mask.length).filter fun i => mask.getD i false

/-- The loop in `Next`; `batches` are the child's batches that are still to come. -/
def nextLoop (f : Filter) : (batches : List DataChunk) → Except Exc (DataChunk × Filter)
  | [] =>
    match f.child.fail with
    | some e => .error e
    | none => .ok (DataChunk.init f.child.types, { f with child := { f.child with batches := [] } })
  | b :: bs =>
    if b.cardinality = 0 then
      .ok (DataChunk.init f.child.types, { f with child := { f.child with batches := bs } })
    else do
      let mask ← evalPredicate f.predicate b
      if kept mask = [] then nextLoop f bs
      else return (b.gather (kept mask), { f with child := { f.child with batches := bs } })

/-- `Next`. -/
def next (f : Filter) : Except Exc (DataChunk × Filter) := f.nextLoop f.child.batches

/-- The open operator. -/
def stream (child : BatchStream) (predicate : BoundExpr) : BatchStream :=
  .ofNext child.types next (child.batches.length + 1) ⟨child, predicate⟩

end Filter

/-! ## Projection -/

structure Projection where
  child : BatchStream
  sources : List Nat

namespace Projection

/-- The types of the projected columns. -/
def outputTypes (types : List ColumnType) (sources : List Nat) : List ColumnType :=
  sources.map fun s => types.getD s .int

/-- `Next`. -/
def next (p : Projection) : Except Exc (DataChunk × Projection) := do
  let (input, child) ← p.child.next
  if input.cardinality = 0 then
    return (DataChunk.init (outputTypes p.child.types p.sources), { p with child })
  else
    let out ← input.select p.sources
    return (out, { p with child })

/-- The open operator. -/
def stream (child : BatchStream) (sources : List Nat) : BatchStream :=
  .ofNext (outputTypes child.types sources) next (child.batches.length + 1) ⟨child, sources⟩

end Projection

/-! ## OrderBy -/

structure OrderByOp where
  types : List ColumnType
  rows : List Row
  cursor : Nat

namespace OrderByOp

/-- The comparison handed to `std::stable_sort`: NULLs first in ascending, last in descending.
    The values of one column never mix strings and numbers, so that comparing them does not
    throw. -/
def rowLess (key : Nat) (desc : Bool) (a b : Row) : Bool :=
  let va := a.getD key .null
  let vb := b.getD key .null
  if va.isNull || vb.isNull then
    if va.isNull && vb.isNull then false else if desc then vb.isNull else va.isNull
  else
    match compareValues va vb with
    | .error _ | .ok .eq => false
    | .ok .lt => !desc
    | .ok .gt => desc

/-- `std::stable_sort`. -/
def sortRows (key : Nat) (desc : Bool) (rows : List Row) : List Row :=
  rows.mergeSort fun a b => !rowLess key desc b a

/-- `Open`: materialize the child and sort its rows. A key that is no column is read out of
    bounds as soon as two rows are compared. -/
def «open» (child : BatchStream) (key : Nat) (desc : Bool) : Except Exc OrderByOp := do
  let rows ← child.forEach (fun rows b => .ok (rows ++ b.rows)) []
  if child.types.length ≤ key && 1 < rows.length then throw .undefinedBehaviour
  return ⟨child.types, sortRows key desc rows, 0⟩

/-- `Next`. -/
def next (o : OrderByOp) : Except Exc (DataChunk × OrderByOp) :=
  if o.rows.length ≤ o.cursor then .ok (DataChunk.init o.types, o)
  else do
    let take := min kVectorSize (o.rows.length - o.cursor)
    let out ← (DataChunk.init o.types).appendRows ((o.rows.drop o.cursor).take take)
    return (out, { o with cursor := o.cursor + take })

/-- The open operator as the batches it has to deliver. -/
def stream (o : OrderByOp) : BatchStream :=
  .ofNext o.types next (o.rows.length + 1) o

end OrderByOp

/-! ## Limit -/

structure Limit where
  child : BatchStream
  remaining : Nat

namespace Limit

/-- `Next`. Once the limit is reached, the child is not asked again. -/
def next (l : Limit) : Except Exc (DataChunk × Limit) :=
  if l.remaining = 0 then .ok (DataChunk.init l.child.types, l)
  else do
    let (input, child) ← l.child.next
    if input.cardinality = 0 then return (DataChunk.init l.child.types, { l with child })
    else
      let take := min input.cardinality l.remaining
      return (input.gather (List.range take), ⟨child, l.remaining - take⟩)

/-- The open operator. -/
def stream (child : BatchStream) (n : Nat) : BatchStream :=
  .ofNext child.types next (child.batches.length + 1) ⟨child, n⟩

end Limit

end LiteOLAP
