import LiteOLAP.Native.Value

/-!
# Abstract syntax

The statements and expressions of `sql/ast.h`, as the parser hands them to `DB::Execute` and
the planner.
-/

namespace LiteOLAP

inductive BinOp where
  | eq | ne | lt | le | gt | ge
  | and | or
  | add | sub | mul | div
  deriving DecidableEq, Repr

inductive AggKind where
  | countStar | count | sum | avg | min | max
  deriving DecidableEq, Repr

/-- `ColumnRefExpr`, `LiteralExpr`, `BinaryExpr`, `NotExpr`, `InExpr` and `AggregateExpr`. -/
inductive Expr where
  /-- `tableAlias` is empty if unqualified. -/
  | columnRef (tableAlias columnName : Bytes)
  | literal (value : Value)
  | binary (op : BinOp) (left right : Expr)
  | not (child : Expr)
  /-- `col IN (v1, v2, ...)`. -/
  | inList (column : Expr) (values : List Value)
  /-- The argument is absent for `COUNT(*)`. -/
  | aggregate (kind : AggKind) (argument : Option Expr)
  deriving Repr

structure ColumnDef where
  name : Bytes
  type : ColumnType
  varcharLen : UInt16
  deriving DecidableEq, Repr

structure TableRef where
  name : Bytes
  /-- Defaults to the name if omitted. -/
  «alias» : Bytes
  deriving DecidableEq, Repr

/-- One projection item: a scalar column or an aggregate, plus an optional output alias. -/
structure SelectItem where
  expr : Expr
  /-- Empty for a derived name. -/
  outputAlias : Bytes
  deriving Repr

structure OrderBy where
  outputName : Bytes
  descending : Bool
  deriving DecidableEq, Repr

structure SelectStmt where
  selectStar : Bool
  items : List SelectItem
  tables : List TableRef
  «where» : Option Expr
  /-- The table alias and column name of each reference. -/
  groupBy : List (Bytes × Bytes)
  having : Option Expr
  orderBy : Option OrderBy
  limit : Option Nat
  deriving Repr

inductive Statement where
  | createTable (tableName : Bytes) (columns : List ColumnDef)
  | dropTable (tableName : Bytes)
  | truncate (tableName : Bytes)
  | insert (tableName : Bytes) (rows : List (List Value))
  | select (stmt : SelectStmt)
  deriving Repr

end LiteOLAP
