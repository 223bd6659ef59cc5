import LiteOLAP.Native.Ast
import LiteOLAP.Native.Expression

/-!
# Names and binding

The first half of `planner/planner.cpp`: how a column reference finds its position in a list of
output names, how an aggregate call is named, and how an expression of the syntax tree becomes
one over positions.
-/

namespace LiteOLAP.Planner

open Bytes (ofAscii)

/-- `Fail`: every error of the planner. -/
def plannerError (m : Bytes) : Exc := .runtimeError (ofAscii "planner: " ++ m)

/-- `EndsWith`. -/
def endsWith (s suf : Bytes) : Bool :=
  decide (suf.length ≤ s.length) && s.drop (s.length - suf.length) == suf

/-- A name that a bare `col` may stand for: `col` itself, or `alias.col`. -/
def matchesBare (col name : Bytes) : Bool := name == col || endsWith name (ofAscii "." ++ col)

/-- `Resolve`: the position of a column reference in a list of output names of the form
    `alias.col` (or bare names for aggregate output). -/
def resolve (names : List Bytes) (tableAlias col : Bytes) : Except Exc Nat :=
  if tableAlias ≠ [] then
    let target := tableAlias ++ ofAscii "." ++ col
    match names.findIdx? (· == target) with
    | some i => .ok i
    | none => .error (plannerError (ofAscii "unknown column: " ++ target))
  else
    match (List.range names.length).filter fun i => matchesBare col (names.getD i []) with
    | [] => .error (plannerError (ofAscii "unknown column: " ++ col))
    | [i] => .ok i
    | _ => .error (plannerError (ofAscii "ambiguous column: " ++ col))

/-- `OpSym`. -/
def opSym : BinOp → Bytes
  | .eq => ofAscii "="
  | .ne => ofAscii "!="
  | .lt => ofAscii "<"
  | .le => ofAscii "<="
  | .gt => ofAscii ">"
  | .ge => ofAscii ">="
  | .and => ofAscii "AND"
  | .or => ofAscii "OR"
  | .add => ofAscii "+"
  | .sub => ofAscii "-"
  | .mul => ofAscii "*"
  | .div => ofAscii "/"

/-- `ExprToString`: the text of an aggregate argument. A bare column keeps its short name;
    arithmetic is fully parenthesized. -/
def exprToString : Expr → Bytes
  | .columnRef _ col => col
  | .literal v => valueToString v
  | .binary op l r =>
    ofAscii "(" ++ exprToString l ++ ofAscii " " ++ opSym op ++ ofAscii " " ++ exprToString r ++
      ofAscii ")"
  | _ => ofAscii "?"

/-- `AggName`: the name an aggregate call is stored and looked up under. -/
def aggName (kind : AggKind) (argument : Option Expr) : Bytes :=
  let arg := (argument.map exprToString).getD (ofAscii "?")
  match kind with
  | .countStar => ofAscii "COUNT(*)"
  | .count => ofAscii "COUNT(" ++ arg ++ ofAscii ")"
  | .sum => ofAscii "SUM(" ++ arg ++ ofAscii ")"
  | .avg => ofAscii "AVG(" ++ arg ++ ofAscii ")"
  | .min => ofAscii "MIN(" ++ arg ++ ofAscii ")"
  | .max => ofAscii "MAX(" ++ arg ++ ofAscii ")"

/-- `InferBoundType`: the scalar type a bound expression evaluates to. -/
def inferBoundType : BoundExpr → ColumnType
  | .column _ t => t
  | .literal (.double _) => .float
  | .literal (.int64 _) => .bigInt
  | .literal (.string _) => .varchar
  | .literal _ => .int
  | .binary op l r =>
    match op with
    | .add | .sub | .mul | .div =>
      if inferBoundType l = .float ∨ inferBoundType r = .float then .float else .bigInt
    -- comparisons and logic produce 0/1
    | _ => .int
  | .not _ => .int

/-- `ToBoundOp`. -/
def toBoundOp : BinOp → BoundOp
  | .eq => .eq
  | .ne => .ne
  | .lt => .lt
  | .le => .le
  | .gt => .gt
  | .ge => .ge
  | .and => .and
  | .or => .or
  | .add => .add
  | .sub => .sub
  | .mul => .mul
  | .div => .div

/-- A column reference as a position and the type found there. -/
def bindColumn (names : List Bytes) (types : List ColumnType) (tableAlias col : Bytes) :
    Except Exc BoundExpr := do
  let idx ← resolve names tableAlias col
  match types[idx]? with
  | some t => return .column idx t
  | none => throw .undefinedBehaviour

/-- The loop over an `IN` list: a chain of `OR`s, one equality for each value. -/
def bindIn (names : List Bytes) (types : List ColumnType) (tableAlias col : Bytes)
    (values : List Value) (chain : Option BoundExpr) : Except Exc (Option BoundExpr) :=
  values.foldlM (fun chain v => do
    let c ← bindColumn names types tableAlias col
    let eq := BoundExpr.binary .eq c (.literal v)
    return some (match chain with
      | some chain => .binary .or chain eq
      | none => eq)) chain

/-- `Bind`: an expression over positions in a schema of names and types. An aggregate call is
    looked up under its name. -/
def bind (names : List Bytes) (types : List ColumnType) : Expr → Except Exc BoundExpr
  | .columnRef tableAlias col => bindColumn names types tableAlias col
  | .literal v => .ok (.literal v)
  | .not child => do
    let c ← bind names types child
    return .not c
  | .aggregate kind argument => bindColumn names types [] (aggName kind argument)
  | .inList (.columnRef tableAlias col) values => do
    match ← bindIn names types tableAlias col values none with
    | some chain => return chain
    | none => throw (plannerError (ofAscii "empty IN list"))
  | .inList _ _ => .error (plannerError (ofAscii "IN requires a column on the left"))
  | .binary op l r => do
    let l ← bind names types l
    let r ← bind names types r
    return .binary (toBoundOp op) l r

/-- `Flatten`: the top-level `AND` conjuncts of a `WHERE` tree. -/
def flatten : Expr → List Expr
  | .binary .and l r => flatten l ++ flatten r
  | e => [e]

/-- Conjuncts bound one after another and chained with `AND` again: the predicate of the
    residual filter, if there is one. -/
def bindConjuncts (names : List Bytes) (types : List ColumnType) (pred : Option BoundExpr)
    (conjuncts : List Expr) : Except Exc (Option BoundExpr) :=
  conjuncts.foldlM (fun pred c => do
    let b ← bind names types c
    return some (match pred with
      | some pred => .binary .and pred b
      | none => b)) pred

end LiteOLAP.Planner
