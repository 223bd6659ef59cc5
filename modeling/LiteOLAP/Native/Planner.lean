import LiteOLAP.Native.Binder
import LiteOLAP.Native.ColumnScan
import LiteOLAP.Native.HashJoin
import LiteOLAP.Native.RowOperators

/-!
# Planning and running a SELECT

The second half of `planner/planner.cpp`: `PlanSelect`, from the names of a statement to a tree of
operators, and what opening that tree does.
-/

namespace LiteOLAP

open Bytes (ofAscii)

/-- The operators of a plan. -/
inductive Plan where
  | scan (s : ColumnScan)
  | hashJoin (left right : Plan) (leftKey rightKey : Nat)
  | filter (child : Plan) (predicate : BoundExpr)
  | hashAggregate (child : Plan) (groupIndices : List Nat) (groupNames : List Bytes)
    (groupTypes : List ColumnType) (aggs : List AggSpec)
  | projection (child : Plan) (sources : List Nat) (names : List Bytes)
  | orderBy (child : Plan) (key : Nat) (desc : Bool)
  | limit (child : Plan) (n : Nat)

namespace Plan

/-- `output_names()`. -/
def outputNames : Plan → List Bytes
  | scan s => s.outputNames
  | hashJoin left right _ _ => left.outputNames ++ right.outputNames
  | filter child _ => child.outputNames
  | hashAggregate _ _ groupNames _ aggs => groupNames ++ aggs.map (·.outputName)
  | projection _ _ names => names
  | orderBy child _ _ => child.outputNames
  | limit child _ => child.outputNames

/-- `output_types()`. -/
def outputTypes : Plan → List ColumnType
  | scan s => s.outputTypes
  | hashJoin left right _ _ => left.outputTypes ++ right.outputTypes
  | filter child _ => child.outputTypes
  | hashAggregate _ _ _ groupTypes aggs => groupTypes ++ aggs.map (·.outputType)
  | projection child sources _ => Projection.outputTypes child.outputTypes sources
  | orderBy child _ _ => child.outputTypes
  | limit child _ => child.outputTypes

end Plan

/-- What a run depends on besides data: the number of hardware threads and how batches are
    shared out among the workers of an aggregation. -/
structure Machine where
  hw : Nat
  assign : Nat → Nat

namespace HashJoin

/-- At most this many batches leave the join. -/
def maxBatches (j : HashJoin) : Nat := j.left.rows.length * j.table.buildRows.length + 1

end HashJoin

namespace Plan

/-- `Open`: the batches the plan's `Next` calls deliver. The build side of a join is opened and
    drained before its probe side is opened. -/
def «open» (m : Machine) : Plan → EStateM Exc BufferPool BatchStream
  | scan s => s.open
  | hashJoin left right leftKey rightKey => do
    let rs ← right.open m
    let built ← EStateM.ofExcept
      (HashJoin.open ⟨left.outputTypes, [], none⟩ rs leftKey rightKey)
    let ls ← left.open m
    let j := { built with left := ls }
    pure (.ofNext (ls.types ++ rs.types) HashJoin.next j.maxBatches j)
  | filter child predicate => do
    let s ← child.open m
    pure (Filter.stream s predicate)
  | hashAggregate child groupIndices _ groupTypes aggs => do
    let s ← child.open m
    let h ← EStateM.ofExcept
      (HashAggregate.open s groupIndices groupTypes aggs m.hw m.assign)
    pure (.ofNext h.outputTypes HashAggregate.next (h.groups.length + 1) h)
  | projection child sources _ => do
    let s ← child.open m
    pure (Projection.stream s sources)
  | orderBy child key desc => do
    let s ← child.open m
    let o ← EStateM.ofExcept (OrderByOp.open s key desc)
    pure o.stream
  | limit child n => do
    let s ← child.open m
    pure (Limit.stream s n)

end Plan

namespace Planner

/-! ## Columns that are needed -/

/-- `WalkRefs`: every column reference, as table alias and column name, in the order of the
    calls of `cb`. -/
def walkRefs : Expr → List (Bytes × Bytes)
  | .columnRef tableAlias col => [(tableAlias, col)]
  | .literal _ => []
  | .not child => walkRefs child
  | .aggregate _ (some argument) => walkRefs argument
  | .aggregate _ none => []
  | .inList column _ => walkRefs column
  | .binary _ l r => walkRefs l ++ walkRefs r

/-- A table of the `FROM` clause, with the columns its scan reads in the order of the table. -/
structure ScanInfo where
  table : TableMeta
  «alias» : Bytes
  colIndices : List Nat
  /-- The names of these columns: `name_to_scanpos` maps each to its position. -/
  colNames : List Bytes

/-- `name_to_scanpos.find(name)`. A name that occurs twice stands for its last position. -/
def ScanInfo.scanPos (s : ScanInfo) (name : Bytes) : Option Nat :=
  (List.range s.colNames.length).reverse.find? fun i => s.colNames.getD i [] == name

/-- `name_to_scanpos.at(name)`. -/
def ScanInfo.scanPosAt (s : ScanInfo) (name : Bytes) : Except Exc Nat :=
  match s.scanPos name with
  | some pos => .ok pos
  | none => .error (.outOfRange (ofAscii "map::at"))

/-- Resolve `FROM` tables. -/
def fromTables (c : Catalog) (tables : List TableRef) : Except Exc (List (TableMeta × Bytes)) :=
  tables.mapM fun tr =>
    match c.getTable tr.name with
    | none => .error (plannerError (ofAscii "unknown table: " ++ tr.name))
    | some m => .ok (m, if tr.alias = [] then tr.name else tr.alias)

/-- `owning_alias`. -/
def owningAlias (scans : List (TableMeta × Bytes)) (col : Bytes) : Except Exc Bytes := do
  let found ← scans.foldlM (fun found s =>
    if (s.1.schema.findColumn col).isSome then
      if found ≠ [] then .error (plannerError (ofAscii "ambiguous column: " ++ col))
      else .ok s.2
    else .ok found) []
  if found = [] then throw (plannerError (ofAscii "unknown column: " ++ col))
  return found

/-- `add_ref`: the needed columns, each with its alias. -/
def addRef (scans : List (TableMeta × Bytes)) (needed : List (Bytes × Bytes))
    (ref : Bytes × Bytes) : Except Exc (List (Bytes × Bytes)) := do
  let a ← if ref.1 = [] then owningAlias scans ref.2 else .ok ref.1
  return needed ++ [(a, ref.2)]

def addRefs (scans : List (TableMeta × Bytes)) (refs : List (Bytes × Bytes))
    (needed : List (Bytes × Bytes)) : Except Exc (List (Bytes × Bytes)) :=
  refs.foldlM (addRef scans) needed

/-- The references in an optional clause. -/
def clauseRefs (e : Option Expr) : List (Bytes × Bytes) :=
  match e with
  | some e => walkRefs e
  | none => []

/-- The columns of the select list: all columns for `*`. -/
def selectRefs (scans : List (TableMeta × Bytes)) (stmt : SelectStmt) : List (Bytes × Bytes) :=
  if stmt.selectStar then
    scans.flatMap fun s => s.1.schema.columns.map fun c => (s.2, c.name)
  else stmt.items.flatMap fun item => walkRefs item.expr

/-- `HasAggregates`. -/
def hasAggregates (stmt : SelectStmt) : Bool :=
  stmt.items.any fun item =>
    match item.expr with
    | .aggregate _ _ => true
    | _ => false

def aggregated (stmt : SelectStmt) : Bool := hasAggregates stmt || !stmt.groupBy.isEmpty

/-- The columns needed by the select list, by `WHERE`, `HAVING` and `GROUP BY`. The columns that
    `*` names are inserted under their own alias. -/
def neededColumns (scans : List (TableMeta × Bytes)) (stmt : SelectStmt) :
    Except Exc (List (Bytes × Bytes)) := do
  let needed ←
    if stmt.selectStar then .ok (selectRefs scans stmt)
    else addRefs scans (selectRefs scans stmt) []
  let needed ← addRefs scans (clauseRefs stmt.where) needed
  let needed ← addRefs scans (clauseRefs stmt.having) needed
  addRefs scans stmt.groupBy needed

/-- A column that only `ORDER BY` names is scanned too; an exception on the way is dropped. -/
def addOrderColumn (scans : List (TableMeta × Bytes)) (stmt : SelectStmt)
    (needed : List (Bytes × Bytes)) : List (Bytes × Bytes) :=
  match stmt.orderBy with
  | some ob =>
    if aggregated stmt then needed
    else
      match addRef scans needed ([], ob.outputName) with
      | .ok needed => needed
      | .error _ => needed
  | none => needed

/-! ## The join predicate -/

/-- A conjunct `col = col`: both sides, each as alias and name. -/
def columnEquality : Expr → Option ((Bytes × Bytes) × (Bytes × Bytes))
  | .binary .eq (.columnRef a c) (.columnRef b d) => some ((a, c), (b, d))
  | _ => none

/-- The first conjunct of that form, and its place. -/
def findJoinPred (conjuncts : List Expr) :
    Option (Nat × ((Bytes × Bytes) × (Bytes × Bytes))) :=
  match conjuncts.findIdx? fun c => (columnEquality c).isSome with
  | none => none
  | some i => (conjuncts[i]?.bind columnEquality).map fun sides => (i, sides)

/-- `WHERE` as conjuncts. -/
def conjunctsOf (stmt : SelectStmt) : List Expr :=
  match stmt.where with
  | some e => flatten e
  | none => []

/-! ## Scans -/

/-- The position of a needed column in its table: `*FindColumn(name)`. -/
def needIndex (m : TableMeta) (name : Bytes) : Except Exc Nat :=
  match m.schema.findColumn name with
  | some i => .ok i
  | none => .error .undefinedBehaviour

/-- `needed[alias]`. -/
def neededOf (needed : List (Bytes × Bytes)) (tableAlias : Bytes) : List Bytes :=
  ((needed.filter fun r => r.1 == tableAlias).map Prod.snd).dedup

/-- A table without needed columns drives rows by its first. -/
def needFirst (s : TableMeta × Bytes) (needed : List (Bytes × Bytes)) :
    Except Exc (List (Bytes × Bytes)) :=
  if neededOf needed s.2 = [] then do
    let first ← s.1.schema.getColumn 0
    return needed ++ [(s.2, first.name)]
  else .ok needed

/-- Finalize one scan's column list. -/
def scanInfo (needed : List (Bytes × Bytes)) (s : TableMeta × Bytes) : Except Exc ScanInfo := do
  let idxs ← (neededOf needed s.2).mapM (needIndex s.1)
  let idxs := idxs.mergeSort fun a b => decide (a ≤ b)
  let cols ← idxs.mapM s.1.schema.getColumn
  return ⟨s.1, s.2, idxs, cols.map (·.name)⟩

/-! ## Zone-map pushdown -/

/-- The integer a literal holds. -/
def literalInt : Value → Option Int64
  | .int32 v => some v.toInt64
  | .int64 v => some v
  | _ => none

/-- The range that `col OP v` allows. The bounds of a strict comparison wrap at the ends. -/
def zoneRange (op : BinOp) (v : Int64) : Option (Int64 × Int64) :=
  match op with
  | .eq => some (v, v)
  | .ge => some (v, Int64.maxValue)
  | .gt => some (v + 1, Int64.maxValue)
  | .le => some (Int64.minValue, v)
  | .lt => some (Int64.minValue, v - 1)
  | _ => none

/-- The zone filter one conjunct gives: an integer column of the scan against a literal. -/
def zoneOf (s : ScanInfo) (c : Expr) : Except Exc (Option ZoneFilter) :=
  match c with
  | .binary op (.columnRef _ col) (.literal lit) =>
    match s.scanPos col with
    | none => .ok none
    | some pos => do
      let idx ← needIndex s.table col
      let column ← s.table.schema.getColumn idx
      if column.type ≠ .int ∧ column.type ≠ .bigInt then return none
      match literalInt lit with
      | none => return none
      | some v => return (zoneRange op v).map fun (lo, hi) => ⟨pos, lo, hi⟩
  | _ => .ok none

/-- The first conjunct that gives a zone filter. -/
def findZone (s : ScanInfo) : List Expr → Except Exc (Option ZoneFilter)
  | [] => .ok none
  | c :: cs => do
    match ← zoneOf s c with
    | some z => return some z
    | none => findZone s cs

/-! ## Assembling the plan -/

/-- Scan the columns of a table. -/
def scanOp (s : ScanInfo) : Except Exc ColumnScan :=
  ColumnScan.create s.table s.alias s.colIndices

/-- The join of two scans. Its inputs are ordered by the aliases in the predicate. -/
def joinPlan (s₀ s₁ : ScanInfo) (op₀ op₁ : ColumnScan)
    (sides : (Bytes × Bytes) × (Bytes × Bytes)) : Except Exc Plan := do
  let (lc, rc) := sides
  let swap := lc.1 == s₁.alias || rc.1 == s₀.alias
  let (left, leftOp, right, rightOp) :=
    if swap then (s₁, op₁, s₀, op₀) else (s₀, op₀, s₁, op₁)
  let (leftCol, rightCol) := if lc.1 == left.alias then (lc, rc) else (rc, lc)
  let leftKey ← left.scanPosAt leftCol.2
  let rightKey ← right.scanPosAt rightCol.2
  return .hashJoin (.scan leftOp) (.scan rightOp) leftKey rightKey

/-- The scans and the optional join, under the residual filter. -/
def residual (root : Plan) (names : List Bytes) (types : List ColumnType)
    (conjuncts : List Expr) : Except Exc Plan := do
  match ← bindConjuncts names types none conjuncts with
  | some pred => return .filter root pred
  | none => return root

/-! ### Aggregates -/

/-- `collect`: the aggregate calls in an expression, from left to right. The list of an `IN` is
    not looked into. -/
def collect : Expr → List (AggKind × Option Expr)
  | .aggregate kind argument => [(kind, argument)]
  | .not child => collect child
  | .binary _ l r => collect l ++ collect r
  | _ => []

/-- The result type of an aggregate. -/
def aggOutputType (kind : AggKind) (inputType : ColumnType) : ColumnType :=
  match kind with
  | .countStar | .count => .bigInt
  | .sum => if inputType = .float then .float else .bigInt
  | .avg => .float
  | .min | .max => inputType

/-- The argument of an aggregate, bound. -/
def bindArgument (names : List Bytes) (types : List ColumnType) (argument : Option Expr) :
    Except Exc BoundExpr :=
  match argument with
  | some e => bind names types e
  | none => .error (plannerError (ofAscii "unsupported expression in predicate"))

/-- `add_agg`: aggregates are told apart by their names. -/
def addAgg (names : List Bytes) (types : List ColumnType) (specs : List AggSpec)
    (call : AggKind × Option Expr) : Except Exc (List AggSpec) := do
  let nm := aggName call.1 call.2
  if specs.any fun s => s.outputName == nm then return specs
  if call.1 = .countStar then return specs ++ [⟨.countStar, none, .int, .bigInt, nm⟩]
  let input ← bindArgument names types call.2
  let inputType := inferBoundType input
  return specs ++ [⟨call.1, some input, inputType, aggOutputType call.1 inputType, nm⟩]

/-- The aggregates of the select list and of `HAVING`. -/
def aggSpecs (names : List Bytes) (types : List ColumnType) (stmt : SelectStmt) :
    Except Exc (List AggSpec) :=
  let calls := (stmt.items.flatMap fun item => collect item.expr) ++
    (match stmt.having with
      | some e => collect e
      | none => [])
  calls.foldlM (addAgg names types) []

/-- The `GROUP BY` columns: position, name and type of each. -/
def groupColumns (names : List Bytes) (types : List ColumnType) (stmt : SelectStmt) :
    Except Exc (List (Nat × Bytes × ColumnType)) :=
  stmt.groupBy.mapM fun g => do
    let idx ← resolve names g.1 g.2
    return (idx, g.2, types.getD idx .int)

/-- The name an item has by default, and its position in the output of the aggregation. -/
def aggItem (outNames : List Bytes) (item : SelectItem) : Except Exc (Nat × Bytes) :=
  match item.expr with
  | .aggregate kind argument => do
    let nm := aggName kind argument
    let idx ← resolve outNames [] nm
    return (idx, nm)
  | .columnRef _ col => do
    let idx ← resolve outNames [] col
    return (idx, col)
  | _ => .error (plannerError (ofAscii "unsupported SELECT item in aggregate query"))

/-- The output name of an item. -/
def itemName (item : SelectItem) (default : Bytes) : Bytes :=
  if item.outputAlias = [] then default else item.outputAlias

/-- The aggregate path up to its projection. -/
def aggregatePlan (stmt : SelectStmt) (root : Plan) (names : List Bytes)
    (types : List ColumnType) : Except Exc Plan := do
  let groups ← groupColumns names types stmt
  let specs ← aggSpecs names types stmt
  let groupNames := groups.map fun g => g.2.1
  let groupTypes := groups.map fun g => g.2.2
  let outNames := groupNames ++ specs.map (·.outputName)
  let outTypes := groupTypes ++ specs.map (·.outputType)
  let root := Plan.hashAggregate root (groups.map Prod.fst) groupNames groupTypes specs
  let root ←
    match stmt.having with
    | some e => do
      let pred ← bind outNames outTypes e
      pure (Plan.filter root pred)
    | none => pure root
  let items ← stmt.items.mapM fun item => do
    let (idx, name) ← aggItem outNames item
    return (idx, itemName item name)
  let root := Plan.projection root (items.map Prod.fst) (items.map Prod.snd)
  match stmt.orderBy with
  | some ob => do
    let idx ← resolve root.outputNames [] ob.outputName
    return .orderBy root idx ob.descending
  | none => return root

/-! ### Plain projections -/

/-- The name of a column under `SELECT *`: bare for one table, qualified for two. -/
def starName (single : Bool) (full : Bytes) : Bytes :=
  if single then
    match full.findIdx? (· == 46) with
    | some dot => full.drop (dot + 1)
    | none => full
  else full

/-- The positions and names of the select list. -/
def projectionItems (stmt : SelectStmt) (single : Bool) (names : List Bytes) :
    Except Exc (List (Nat × Bytes)) :=
  if stmt.selectStar then
    .ok ((List.range names.length).map fun i => (i, starName single (names.getD i [])))
  else
    stmt.items.mapM fun item =>
      match item.expr with
      | .columnRef tableAlias col => do
        let idx ← resolve names tableAlias col
        return (idx, itemName item col)
      | _ => .error (plannerError (ofAscii "non-aggregate query: SELECT item must be a column"))

/-- The last output column of a name. -/
def lastIndexOf (names : List Bytes) (name : Bytes) : Option Nat :=
  (List.range names.length).reverse.find? fun i => names.getD i [] == name

/-- The non-aggregate path: a sort key that is an output column is sorted after the projection,
    any other column before it. -/
def projectionPlan (stmt : SelectStmt) (root : Plan) (single : Bool) (names : List Bytes) :
    Except Exc Plan := do
  let items ← projectionItems stmt single names
  let idxs := items.map Prod.fst
  let outNames := items.map Prod.snd
  match stmt.orderBy with
  | none => return .projection root idxs outNames
  | some ob =>
    match lastIndexOf outNames ob.outputName with
    | some pidx => return .orderBy (.projection root idxs outNames) pidx ob.descending
    | none => do
      let cidx ← resolve names [] ob.outputName
      return .projection (.orderBy root cidx ob.descending) idxs outNames

/-- What stands above the scans, the join and the residual filter. -/
def upperPlan (stmt : SelectStmt) (root : Plan) (single : Bool) (names : List Bytes)
    (types : List ColumnType) : Except Exc Plan := do
  let root ←
    if aggregated stmt then aggregatePlan stmt root names types
    else projectionPlan stmt root single names
  match stmt.limit with
  | some n => return .limit root n
  | none => return root

/-- The plan of a query on one table. -/
def planSingle (stmt : SelectStmt) (needed : List (Bytes × Bytes)) (t : TableMeta × Bytes) :
    Except Exc Plan := do
  let needed ← needFirst t needed
  let s ← scanInfo needed t
  let scan ← scanOp s
  let zone ← findZone s (conjunctsOf stmt)
  let scan := { scan with zone }
  let root ← residual (.scan scan) scan.outputNames scan.outputTypes (conjunctsOf stmt)
  upperPlan stmt root true scan.outputNames scan.outputTypes

/-- The plan of a query on two tables. -/
def planJoin (stmt : SelectStmt) (scans : List (TableMeta × Bytes)) (needed : List (Bytes × Bytes))
    (t₀ t₁ : TableMeta × Bytes) : Except Exc Plan := do
  match findJoinPred (conjunctsOf stmt) with
  | none => throw (plannerError (ofAscii "two-table query requires an equi-join predicate"))
  | some (at_, sides) => do
    let needed ← addRefs scans [sides.1, sides.2] needed
    let needed ← needFirst t₀ needed
    let s₀ ← scanInfo needed t₀
    let needed ← needFirst t₁ needed
    let s₁ ← scanInfo needed t₁
    let op₀ ← scanOp s₀
    let op₁ ← scanOp s₁
    let names := op₀.outputNames ++ op₁.outputNames
    let types := op₀.outputTypes ++ op₁.outputTypes
    let join ← joinPlan s₀ s₁ op₀ op₁ sides
    let root ← residual join names types ((conjunctsOf stmt).eraseIdx at_)
    upperPlan stmt root false names types

/-- `PlanSelect`. -/
def planSelect (stmt : SelectStmt) (c : Catalog) : Except Exc Plan := do
  if stmt.tables = [] then throw (plannerError (ofAscii "SELECT without FROM is not supported"))
  if 2 < stmt.tables.length then
    throw (plannerError (ofAscii "more than two-table joins are not supported"))
  let scans ← fromTables c stmt.tables
  let needed ← neededColumns scans stmt
  let needed := addOrderColumn scans stmt needed
  match scans with
  | [t] => planSingle stmt needed t
  | [t₀, t₁] => planJoin stmt scans needed t₀ t₁
  | _ => throw .undefinedBehaviour

end Planner

end LiteOLAP
