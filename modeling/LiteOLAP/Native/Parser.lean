import LiteOLAP.Native.Ast
import LiteOLAP.Native.Lexer

/-!
# The parser

`sql/parser.cpp`: recursive descent over the tokens of a statement.

The tokens from `pos_` on stand for `pos_`, and a production returns its result and the tokens
behind it; reading a token behind the last one has no meaning. The productions of expressions call
each other with less fuel; the loops of a production count their rounds by the tokens that are left.
-/

namespace LiteOLAP

open Bytes (ofAscii)

namespace Parser

/-- `Fail`. -/
def fail (m : Bytes) : Exc := .runtimeError (ofAscii "parser: " ++ m)

/-- `Peek`. -/
def peek : List Token → Except Exc Token
  | t :: _ => .ok t
  | [] => .error .undefinedBehaviour

/-- `MatchKw` and `MatchPunct`: step over a token if it is the given one. -/
def matchToken (t : Token) (ts : List Token) : Except Exc (Bool × List Token) := do
  let next ← peek ts
  return if next = t then (true, ts.tail) else (false, ts)

/-- `MatchKw`. -/
def matchKw (kw : Keyword) (ts : List Token) : Except Exc (Bool × List Token) :=
  matchToken (.keyword kw) ts

/-- `MatchPunct`. -/
def matchPunct (p : Punct) (ts : List Token) : Except Exc (Bool × List Token) :=
  matchToken (.punct p) ts

/-- `ExpectKw`. -/
def expectKw (kw : Keyword) (ts : List Token) : Except Exc (List Token) := do
  let (found, ts) ← matchKw kw ts
  if found then return ts
  let next ← peek ts
  throw (fail (ofAscii "expected keyword " ++ kw.text ++ ofAscii ", got '" ++ next.text ++
    ofAscii "'"))

/-- `ExpectPunct`. -/
def expectPunct (p : Punct) (ts : List Token) : Except Exc (List Token) := do
  let (found, ts) ← matchPunct p ts
  if found then return ts
  let next ← peek ts
  throw (fail (ofAscii "expected '" ++ p.text ++ ofAscii "', got '" ++ next.text ++ ofAscii "'"))

/-- `ExpectIdent`. -/
def expectIdent (ts : List Token) : Except Exc (Bytes × List Token) := do
  match ← peek ts with
  | .identifier text => return (text, ts.tail)
  | next => throw (fail (ofAscii "expected identifier, got '" ++ next.text ++ ofAscii "'"))

/-- `ExpectEnd`. -/
def expectEnd (ts : List Token) : Except Exc (List Token) := do
  let (_, ts) ← matchPunct .semicolon ts
  let next ← peek ts
  if next = .eof then return ts
  throw (fail (ofAscii "trailing tokens after statement"))

/-- An integer literal, in 32 bits if it fits. -/
def integerValue (v : Int64) : Value :=
  if -2 ^ 31 ≤ v.toInt ∧ v.toInt ≤ 2 ^ 31 - 1 then .int32 v.toInt32 else .int64 v

/-- `ParseLiteral`. -/
def parseLiteral (ts : List Token) : Except Exc (Value × List Token) := do
  match ← peek ts with
  | .integer _ v => return (integerValue v, ts.tail)
  | .float _ v => return (.double v, ts.tail)
  | .string s => return (.string s, ts.tail)
  | .keyword .null => return (.null, ts.tail)
  | t => throw (fail (ofAscii "expected literal, got '" ++ t.text ++ ofAscii "'"))

/-! ## Repetition -/

/-- The loop `while (MatchPunct(",")) ...`: further items behind commas. -/
def commaLoop {α : Type} (item : List Token → Except Exc (α × List Token)) :
    (fuel : Nat) → List α → List Token → Except Exc (List α × List Token)
  | 0, _, _ => .error .diverges
  | fuel + 1, xs, ts => do
    let (comma, ts) ← matchPunct .comma ts
    if comma then
      let (x, ts) ← item ts
      commaLoop item fuel (xs ++ [x]) ts
    else return (xs, ts)

/-- One item, and further ones behind commas. -/
def commaList {α : Type} (item : List Token → Except Exc (α × List Token)) (ts : List Token) :
    Except Exc (List α × List Token) := do
  let (x, ts) ← item ts
  commaLoop item (ts.length + 1) [x] ts

/-- The loop of a level with left-associative operators: an operator, an operand, and again. -/
def binaryLoop (op? : Token → Option BinOp)
    (operand : List Token → Except Exc (Expr × List Token)) :
    (fuel : Nat) → Expr → List Token → Except Exc (Expr × List Token)
  | 0, _, _ => .error .diverges
  | fuel + 1, l, ts => do
    let t ← peek ts
    match op? t with
    | some op =>
      let (r, ts) ← operand ts.tail
      binaryLoop op? operand fuel (.binary op l r) ts
    | none => return (l, ts)

/-! ## Expressions -/

def orOp : Token → Option BinOp
  | .keyword .or => some .or
  | _ => none

def andOp : Token → Option BinOp
  | .keyword .and => some .and
  | _ => none

def addSubOp : Token → Option BinOp
  | .punct .plus => some .add
  | .punct .minus => some .sub
  | _ => none

def mulDivOp : Token → Option BinOp
  | .punct .star => some .mul
  | .punct .slash => some .div
  | _ => none

def comparisonOp : Token → Option BinOp
  | .punct .eq => some .eq
  | .punct .ne => some .ne
  | .punct .lt => some .lt
  | .punct .le => some .le
  | .punct .gt => some .gt
  | .punct .ge => some .ge
  | _ => none

/-- `PeekAggregate`. -/
def aggregateKw : Token → Option Keyword
  | .keyword kw => if kw ∈ [.count, .sum, .avg, .min, .max] then some kw else none
  | _ => none

/-- What an aggregate function other than `COUNT` computes. -/
def aggregateKind : Keyword → AggKind
  | .sum => .sum
  | .avg => .avg
  | .min => .min
  | _ => .max

/-- `fn == "COUNT" && MatchPunct("*")`. -/
def matchStar (fn : Token) (ts : List Token) : Except Exc (Bool × List Token) :=
  if fn = .keyword .count then matchPunct .star ts else .ok (false, ts)

/-- A column reference, with its qualifier if there is a dot. -/
def parseColumnRef (ts : List Token) : Except Exc ((Bytes × Bytes) × List Token) := do
  let (first, ts) ← expectIdent ts
  let (dot, ts) ← matchPunct .dot ts
  if dot then
    let (col, ts) ← expectIdent ts
    return ((first, col), ts)
  else return (([], first), ts)

/-- `BETWEEN` as two comparisons of the column on its left. -/
def betweenExpr (l lo hi : Expr) : Except Exc Expr :=
  match l with
  | .columnRef tableAlias col =>
    .ok (.binary .and (.binary .ge (.columnRef tableAlias col) lo)
      (.binary .le (.columnRef tableAlias col) hi))
  | _ => .error (fail (ofAscii "BETWEEN requires a column on the left"))

mutual

/-- `ParseExpr` and `ParseOr`. -/
def parseOr : (fuel : Nat) → List Token → Except Exc (Expr × List Token)
  | 0, _ => .error .diverges
  | fuel + 1, ts => do
    let (l, ts) ← parseAnd fuel ts
    binaryLoop orOp (parseAnd fuel) (ts.length + 1) l ts

def parseAnd : (fuel : Nat) → List Token → Except Exc (Expr × List Token)
  | 0, _ => .error .diverges
  | fuel + 1, ts => do
    let (l, ts) ← parseNot fuel ts
    binaryLoop andOp (parseNot fuel) (ts.length + 1) l ts

def parseNot : (fuel : Nat) → List Token → Except Exc (Expr × List Token)
  | 0, _ => .error .diverges
  | fuel + 1, ts => do
    let (found, ts) ← matchKw .not ts
    if found then
      let (e, ts) ← parseNot fuel ts
      return (.not e, ts)
    else parseComparison fuel ts

def parseComparison : (fuel : Nat) → List Token → Except Exc (Expr × List Token)
  | 0, _ => .error .diverges
  | fuel + 1, ts => do
    let (l, ts) ← parseAddSub fuel ts
    let t ← peek ts
    match comparisonOp t with
    | some op =>
      let (r, ts) ← parseAddSub fuel ts.tail
      return (.binary op l r, ts)
    | none =>
      if t = .keyword .between then
        let (lo, ts) ← parseAddSub fuel ts.tail
        let ts ← expectKw .and ts
        let (hi, ts) ← parseAddSub fuel ts
        let both ← betweenExpr l lo hi
        return (both, ts)
      else if t = .keyword .in then
        let ts ← expectPunct .lparen ts.tail
        let (values, ts) ← commaList parseLiteral ts
        let ts ← expectPunct .rparen ts
        return (.inList l values, ts)
      else return (l, ts)

def parseAddSub : (fuel : Nat) → List Token → Except Exc (Expr × List Token)
  | 0, _ => .error .diverges
  | fuel + 1, ts => do
    let (l, ts) ← parseMulDiv fuel ts
    binaryLoop addSubOp (parseMulDiv fuel) (ts.length + 1) l ts

def parseMulDiv : (fuel : Nat) → List Token → Except Exc (Expr × List Token)
  | 0, _ => .error .diverges
  | fuel + 1, ts => do
    let (l, ts) ← parsePrimary fuel ts
    binaryLoop mulDivOp (parsePrimary fuel) (ts.length + 1) l ts

def parsePrimary : (fuel : Nat) → List Token → Except Exc (Expr × List Token)
  | 0, _ => .error .diverges
  | fuel + 1, ts => do
    let (paren, ts) ← matchPunct .lparen ts
    if paren then
      let (e, ts) ← parseOr fuel ts
      let ts ← expectPunct .rparen ts
      return (e, ts)
    let t ← peek ts
    if (aggregateKw t).isSome then parseAggregate fuel ts
    else
      match t with
      | .integer _ _ | .float _ _ | .string _ | .keyword .null =>
        let (v, ts) ← parseLiteral ts
        return (.literal v, ts)
      | .identifier _ =>
        let ((tableAlias, col), ts) ← parseColumnRef ts
        return (.columnRef tableAlias col, ts)
      | t => throw (fail (ofAscii "expected expression, got '" ++ t.text ++ ofAscii "'"))

def parseAggregate : (fuel : Nat) → List Token → Except Exc (Expr × List Token)
  | 0, _ => .error .diverges
  | fuel + 1, ts => do
    let fn ← peek ts
    let ts ← expectPunct .lparen ts.tail
    let (star, ts) ← matchStar fn ts
    if star then
      let ts ← expectPunct .rparen ts
      return (.aggregate .countStar none, ts)
    else
      let (argument, ts) ← parseAddSub fuel ts
      let ts ← expectPunct .rparen ts
      let kind :=
        match fn with
        | .keyword .count => .count
        | .keyword kw => aggregateKind kw
        | _ => .max
      return (.aggregate kind (some argument), ts)

end

/-- Fuel for an expression in the given tokens: at most eight calls for every token. -/
def fuelFor (ts : List Token) : Nat := 8 * ts.length + 8

/-- `ParseExpr`. -/
def parseExpr (ts : List Token) : Except Exc (Expr × List Token) := parseOr (fuelFor ts) ts

/-! ## Statements -/

/-- The expression of a select item: an aggregate or a primary. -/
def parseItemExpr (ts : List Token) : Except Exc (Expr × List Token) := do
  let t ← peek ts
  if (aggregateKw t).isSome then parseAggregate (fuelFor ts) ts else parsePrimary (fuelFor ts) ts

/-- `ParseSelectItem`. -/
def parseSelectItem (ts : List Token) : Except Exc (SelectItem × List Token) := do
  let (expr, ts) ← parseItemExpr ts
  let (as, ts) ← matchKw .as ts
  if as then
    let (name, ts) ← expectIdent ts
    return (⟨expr, name⟩, ts)
  else return (⟨expr, []⟩, ts)

/-- `ParseTableRef`. -/
def parseTableRef (ts : List Token) : Except Exc (TableRef × List Token) := do
  let (name, ts) ← expectIdent ts
  match ← peek ts with
  | .keyword .as =>
    let (tableAlias, ts) ← expectIdent ts.tail
    return (⟨name, tableAlias⟩, ts)
  | .identifier _ =>
    let (tableAlias, ts) ← expectIdent ts
    return (⟨name, tableAlias⟩, ts)
  | _ => return (⟨name, name⟩, ts)

/-- An optional clause that begins with a keyword. -/
def optionalClause {α : Type} (kw : Keyword) (clause : List Token → Except Exc (α × List Token))
    (ts : List Token) : Except Exc (Option α × List Token) := do
  let (found, ts) ← matchKw kw ts
  if found then
    let (x, ts) ← clause ts
    return (some x, ts)
  else return (none, ts)

/-- The select list: `*`, or items. -/
def parseSelectList (ts : List Token) : Except Exc ((Bool × List SelectItem) × List Token) := do
  let (star, ts) ← matchPunct .star ts
  if star then return ((true, []), ts)
  else
    let (items, ts) ← commaList parseSelectItem ts
    return ((false, items), ts)

/-- `GROUP BY` behind its first word. -/
def parseGroupBy (ts : List Token) : Except Exc ((List (Bytes × Bytes)) × List Token) := do
  let ts ← expectKw .by ts
  commaList parseColumnRef ts

/-- The key of `ORDER BY`. A qualified key collapses to the column name. -/
def parseOrderKey (ts : List Token) : Except Exc (Bytes × List Token) := do
  let (name, ts) ← expectIdent ts
  let (dot, ts) ← matchPunct .dot ts
  if dot then expectIdent ts else return (name, ts)

/-- `ORDER BY` behind its first word. -/
def parseOrderBy (ts : List Token) : Except Exc (OrderBy × List Token) := do
  let ts ← expectKw .by ts
  let (name, ts) ← parseOrderKey ts
  let (desc, ts) ← matchKw .desc ts
  if desc then return (⟨name, true⟩, ts)
  else
    let (_, ts) ← matchKw .asc ts
    return (⟨name, false⟩, ts)

/-- The number of `LIMIT`. -/
def parseLimit (ts : List Token) : Except Exc (Nat × List Token) := do
  match ← peek ts with
  | .integer _ v =>
    if v < 0 then throw (fail (ofAscii "LIMIT must be a non-negative integer"))
    return (v.toInt.toNat, ts.tail)
  | _ => throw (fail (ofAscii "LIMIT must be a non-negative integer"))

/-- `ParseSelect`. -/
def parseSelect (ts : List Token) : Except Exc (Statement × List Token) := do
  let ts ← expectKw .select ts
  let ((selectStar, items), ts) ← parseSelectList ts
  let ts ← expectKw .from ts
  let (tables, ts) ← commaList parseTableRef ts
  let («where», ts) ← optionalClause .where parseExpr ts
  let (groupBy, ts) ← optionalClause .group parseGroupBy ts
  let (having, ts) ← optionalClause .having parseExpr ts
  let (orderBy, ts) ← optionalClause .order parseOrderBy ts
  let (limit, ts) ← optionalClause .limit parseLimit ts
  let ts ← expectEnd ts
  return (.select {
    selectStar, items, tables, «where», groupBy := groupBy.getD [], having, orderBy, limit }, ts)

/-- One row of `VALUES`. -/
def parseRow (ts : List Token) : Except Exc (List Value × List Token) := do
  let ts ← expectPunct .lparen ts
  let (row, ts) ← commaList parseLiteral ts
  let ts ← expectPunct .rparen ts
  return (row, ts)

/-- `ParseInsert`. -/
def parseInsert (ts : List Token) : Except Exc (Statement × List Token) := do
  let ts ← expectKw .insert ts
  let ts ← expectKw .into ts
  let (name, ts) ← expectIdent ts
  let ts ← expectKw .values ts
  let (rows, ts) ← commaList parseRow ts
  let ts ← expectEnd ts
  return (.insert name rows, ts)

/-- The length of a `VARCHAR` column. -/
def parseVarcharLen (ts : List Token) : Except Exc (UInt16 × List Token) := do
  match ← peek ts with
  | .integer _ v =>
    if v ≤ 0 ∨ 65535 < v then
      throw (fail (ofAscii "VARCHAR length must be a positive integer <= 65535"))
    return (.ofNat v.toInt.toNat, ts.tail)
  | _ => throw (fail (ofAscii "VARCHAR length must be a positive integer <= 65535"))

/-- `ParseColumnDef`. -/
def parseColumnDef (ts : List Token) : Except Exc (ColumnDef × List Token) := do
  let (name, ts) ← expectIdent ts
  match ← peek ts with
  | .keyword .int => return (⟨name, .int, 0⟩, ts.tail)
  | .keyword .bigInt => return (⟨name, .bigInt, 0⟩, ts.tail)
  | .keyword .float => return (⟨name, .float, 0⟩, ts.tail)
  | .keyword .varchar =>
    let ts ← expectPunct .lparen ts.tail
    let (len, ts) ← parseVarcharLen ts
    let ts ← expectPunct .rparen ts
    return (⟨name, .varchar, len⟩, ts)
  | .keyword kw => throw (fail (ofAscii "unknown column type: " ++ kw.text))
  | t => throw (fail (ofAscii "expected column type, got '" ++ t.text ++ ofAscii "'"))

/-- `ParseCreateTable`. -/
def parseCreateTable (ts : List Token) : Except Exc (Statement × List Token) := do
  let ts ← expectKw .create ts
  let ts ← expectKw .table ts
  let (name, ts) ← expectIdent ts
  let ts ← expectPunct .lparen ts
  let (columns, ts) ← commaList parseColumnDef ts
  let ts ← expectPunct .rparen ts
  let ts ← expectEnd ts
  return (.createTable name columns, ts)

/-- `ParseDrop`. -/
def parseDrop (ts : List Token) : Except Exc (Statement × List Token) := do
  let ts ← expectKw .drop ts
  let ts ← expectKw .table ts
  let (name, ts) ← expectIdent ts
  let ts ← expectEnd ts
  return (.dropTable name, ts)

/-- `ParseTruncate`. -/
def parseTruncate (ts : List Token) : Except Exc (Statement × List Token) := do
  let ts ← expectKw .truncate ts
  let ts ← expectKw .table ts
  let (name, ts) ← expectIdent ts
  let ts ← expectEnd ts
  return (.truncate name, ts)

/-- `ParseStatement`. -/
def parseStatement (ts : List Token) : Except Exc (Statement × List Token) := do
  match ← peek ts with
  | .keyword .select => parseSelect ts
  | .keyword .insert => parseInsert ts
  | .keyword .create => parseCreateTable ts
  | .keyword .drop => parseDrop ts
  | .keyword .truncate => parseTruncate ts
  | .keyword kw => throw (fail (ofAscii "unsupported statement: " ++ kw.text))
  | _ => throw (fail (ofAscii "expected statement"))

end Parser

/-- `Parse`. -/
def parse (stod : Bytes → Option Double) (sql : Bytes) : Except Exc Statement := do
  let tokens ← Lexer.tokenize stod sql
  let (statement, _) ← Parser.parseStatement tokens
  return statement

end LiteOLAP
