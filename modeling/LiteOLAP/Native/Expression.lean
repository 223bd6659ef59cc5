import LiteOLAP.Native.DataChunk

/-!
# Bound expressions

`execution/expression.{h,cpp}`: expressions whose column references are positions in a
`DataChunk`, their evaluation row by row, and `EvalPredicate` with its typed fast path for
`column CMP literal`.

`int64` arithmetic is two's-complement.
-/

namespace LiteOLAP

open Bytes (ofAscii)

/-- Operator tags of `BoundOp` that take two operands. -/
inductive BoundOp where
  | eq | ne | lt | le | gt | ge
  | and | or
  | add | sub | mul | div
  deriving DecidableEq, Repr

namespace BoundOp

/-- `=`, `!=`, `<`, `<=`, `>` or `>=`. -/
def isComparison : BoundOp → Bool
  | .eq | .ne | .lt | .le | .gt | .ge => true
  | _ => false

end BoundOp

/-- An expression whose column references have been resolved to positions. -/
inductive BoundExpr where
  | column (colIndex : Nat) (colType : ColumnType)
  | literal (v : Value)
  | not (child : BoundExpr)
  | binary (op : BoundOp) (left right : BoundExpr)
  deriving DecidableEq, Repr

/-- Truthiness used by WHERE/HAVING. NULL is false. -/
def valueTruthy : Value → Bool
  | .null => false
  | .int32 v => v != 0
  | .int64 v => v != 0
  | .double v => !(v.beq .zero)
  | .string v => !v.isEmpty

def isFloat : Value → Bool
  | .double _ => true
  | _ => false

/-- `AsDouble`: `std::get<std::int32_t>` is the last resort, so anything else throws. -/
def asDouble : Value → Except Exc Double
  | .double v => .ok v
  | .int64 v => .ok (.ofInt v.toInt)
  | .int32 v => .ok (.ofInt v.toInt)
  | _ => .error .badVariantAccess

/-- `AsI64`: `std::get<std::int32_t>` is the last resort, so anything else throws. -/
def asI64 : Value → Except Exc Int64
  | .int64 v => .ok v
  | .int32 v => .ok v.toInt64
  | _ => .error .badVariantAccess

/-- Numeric arithmetic with null propagation. Promotes to double if either operand is
    floating; division by zero yields NULL. -/
def arithResult (op : BoundOp) (l r : Value) : Except Exc Value := do
  if l.isNull || r.isNull then return .null
  if isFloat l || isFloat r then
    let a ← asDouble l
    let b ← asDouble r
    match op with
    | .add => return .double (a + b)
    | .sub => return .double (a - b)
    | .mul => return .double (a * b)
    | .div => return if b.beq .zero then .null else .double (a / b)
    | _ => throw (.logicError (ofAscii "ArithResult: not arithmetic"))
  let a ← asI64 l
  let b ← asI64 r
  match op with
  | .add => return .int64 (a + b)
  | .sub => return .int64 (a - b)
  | .mul => return .int64 (a * b)
  | .div => return if b == 0 then .null else .int64 (a / b)
  | _ => throw (.logicError (ofAscii "ArithResult: not arithmetic"))

/-- What a comparison operator makes of a three-way comparison. -/
def BoundOp.holds : BoundOp → Ordering → Option Bool
  | .eq, c => some (c == .eq)
  | .ne, c => some (c != .eq)
  | .lt, c => some (c == .lt)
  | .le, c => some (c != .gt)
  | .gt, c => some (c == .gt)
  | .ge, c => some (c != .lt)
  | _, _ => none

/-- The `int32` a predicate evaluates to. -/
def boolValue (b : Bool) : Value := .int32 (if b then 1 else 0)

/-- A comparison with a NULL operand is `0`. -/
def compareResult (op : BoundOp) (l r : Value) : Except Exc Value := do
  if l.isNull || r.isNull then return boolValue false
  let c ← compareValues l r
  match op.holds c with
  | some ok => return boolValue ok
  | none => throw (.logicError (ofAscii "CompareResult: not a comparison"))

/-- Evaluates the expression for one row of `chunk`. -/
def evalExprRow (e : BoundExpr) (chunk : DataChunk) (row : Nat) : Except Exc Value :=
  match e with
  | .column idx _ => chunk.getValue idx row
  | .literal v => .ok v
  | .not c => do
    let v ← evalExprRow c chunk row
    return boolValue (!valueTruthy v)
  | .binary .and l r => do
    -- the right side is only evaluated when the left one is truthy
    let v ← evalExprRow l chunk row
    if !valueTruthy v then return boolValue false
    let w ← evalExprRow r chunk row
    return boolValue (valueTruthy w)
  | .binary .or l r => do
    let v ← evalExprRow l chunk row
    if valueTruthy v then return boolValue true
    let w ← evalExprRow r chunk row
    return boolValue (valueTruthy w)
  | .binary op l r => do
    let v ← evalExprRow l chunk row
    let w ← evalExprRow r chunk row
    match op with
    | .add | .sub | .mul | .div => arithResult op v w
    | _ => compareResult op v w

/-! ## `EvalPredicate` -/

/-- `e` is `column CMP literal` on a column bound as fixed-width. -/
def isSimpleNumericCompare : BoundExpr → Bool
  | .binary op (.column _ t) (.literal _) => op.isComparison && t != .varchar
  | _ => false

/-- The comparison `FastCompare` makes with the operators of the element type `T`, given as
    its `==`, `<` and `<=`. -/
def fastOp {α : Type} (beq lt le : α → α → Bool) (op : BoundOp) (v lit : α) : Bool :=
  match op with
  | .eq => beq v lit
  | .ne => !(beq v lit)
  | .lt => lt v lit
  | .le => le v lit
  | .gt => lt lit v
  | .ge => le lit v
  | _ => false

/-- `FastCompare<T>`: the mask over a column, `0` where the slot is not valid. -/
def fastCompare {α : Type} (beq lt le : α → α → Bool) (op : BoundOp) (data : List (Option α))
    (lit : α) : List Bool :=
  data.map fun
    | none => false
    | some v => fastOp beq lt le op v lit

/-- The slots of an `INT` column: `GetData<std::int32_t>()` under the validity bytes. -/
def int32Slots (v : Vector) : List (Option Int32) :=
  v.values.map fun | .int32 x => some x | _ => none

/-- The slots of a `BIGINT` column. -/
def int64Slots (v : Vector) : List (Option Int64) :=
  v.values.map fun | .int64 x => some x | _ => none

/-- The slots of a `FLOAT` column. -/
def doubleSlots (v : Vector) : List (Option Double) :=
  v.values.map fun | .double x => some x | _ => none

/-- The per-row path: the mask of `ValueTruthy(EvalExprRow(...))`. -/
def evalPredicateRows (predicate : BoundExpr) (chunk : DataChunk) : Except Exc (List Bool) :=
  (List.range chunk.cardinality).mapM fun i => do
    let v ← evalExprRow predicate chunk i
    return valueTruthy v

/-- The typed path for `column CMP literal`; `none` where it falls through to the per-row
    path because the vector is `VARCHAR`. -/
def fastPredicate (op : BoundOp) (col : Vector) (lit : Value) :
    Except Exc (Option (List Bool)) :=
  match col.type with
  | .int =>
    -- `std::get<std::int32_t>(lit)`
    match lit with
    | .int32 l => .ok (some (fastCompare (· == ·) (decide <| · < ·) (decide <| · ≤ ·) op
        (int32Slots col) l))
    | _ => .error .badVariantAccess
  | .bigInt => do
    let l ← asI64 lit
    return some (fastCompare (· == ·) (decide <| · < ·) (decide <| · ≤ ·) op (int64Slots col) l)
  | .float => do
    let l ← asDouble lit
    return some (fastCompare Double.beq Double.lt Double.le op (doubleSlots col) l)
  | .varchar => .ok none

/-- The selection mask for every row of `chunk`: the typed path for `column CMP literal` on
    fixed-width columns, per-row evaluation otherwise. -/
def evalPredicate (predicate : BoundExpr) (chunk : DataChunk) : Except Exc (List Bool) :=
  match predicate with
  | .binary op (.column idx t) (.literal lit) =>
    if isSimpleNumericCompare (.binary op (.column idx t) (.literal lit)) then
      match chunk.columns[idx]? with
      | none => .error .undefinedBehaviour
      | some col => do
        match ← fastPredicate op col lit with
        | some mask => return mask
        | none => evalPredicateRows predicate chunk
    else evalPredicateRows predicate chunk
  | _ => evalPredicateRows predicate chunk

end LiteOLAP
