import LiteOLAP.Spec.PlanSound

/-!
# Planning looks at schemas only

`PlanSelect` reads the schemas of the tables. If the row groups of the tables are others, as they
are behind a flush, the same query has the same plan on these row groups.

## Key results

- `Planner.planSelect_retable`: the plan of a query when the tables have other row groups
-/

namespace LiteOLAP

/-! ## Other tables for the scans -/

/-- The scan of another table. -/
def ColumnScan.retable (f : TableMeta → TableMeta) (s : ColumnScan) : ColumnScan :=
  { s with table := f s.table }

namespace Plan

/-- The plan with other tables in its scans. -/
def retable (f : TableMeta → TableMeta) : Plan → Plan
  | scan s => scan (s.retable f)
  | hashJoin left right leftKey rightKey =>
    hashJoin (left.retable f) (right.retable f) leftKey rightKey
  | filter child predicate => filter (child.retable f) predicate
  | hashAggregate child groupIndices groupNames groupTypes aggs =>
    hashAggregate (child.retable f) groupIndices groupNames groupTypes aggs
  | projection child sources names => projection (child.retable f) sources names
  | orderBy child key desc => orderBy (child.retable f) key desc
  | limit child n => limit (child.retable f) n

variable {f : TableMeta → TableMeta} {tables : Bytes → List Row}

@[simp] theorem outputNames_retable (p : Plan) : (p.retable f).outputNames = p.outputNames := by
  induction p with
  | scan s => rfl
  | hashJoin left right _ _ ihl ihr => simp only [retable, outputNames, ihl, ihr]
  | filter child _ ih => exact ih
  | hashAggregate child _ _ _ _ _ => rfl
  | projection child _ _ _ => rfl
  | orderBy child _ _ ih => exact ih
  | limit child _ ih => exact ih

@[simp] theorem outputTypes_retable (p : Plan) : (p.retable f).outputTypes = p.outputTypes := by
  induction p with
  | scan s => rfl
  | hashJoin left right _ _ ihl ihr => simp only [retable, outputTypes, ihl, ihr]
  | filter child _ ih => exact ih
  | hashAggregate child _ _ _ _ _ => rfl
  | projection child _ _ ih => simp only [retable, outputTypes, ih]
  | orderBy child _ _ ih => exact ih
  | limit child _ ih => exact ih

/-- A plan means the same if its tables have the same names. -/
theorem meaning_retable (hname : ∀ m, (f m).name = m.name) (p : Plan) :
    (p.retable f).meaning tables = p.meaning tables := by
  induction p with
  | scan s => simp only [retable, meaning, ColumnScan.retable, hname]
  | hashJoin left right _ _ ihl ihr => simp only [retable, meaning, ihl, ihr]
  | filter child _ ih => simp only [retable, meaning, ih, outputTypes_retable]
  | hashAggregate child _ _ _ _ ih => simp only [retable, meaning, ih]
  | projection child _ _ ih => simp only [retable, meaning, ih]
  | orderBy child _ _ ih => simp only [retable, meaning, ih]
  | limit child _ ih => simp only [retable, meaning, ih]

end Plan

namespace Planner

variable {f : TableMeta → TableMeta} {stmt : SelectStmt} {names : List Bytes}
  {types : List ColumnType} {single : Bool}

/-- A table of the `FROM` clause, replaced. -/
def retableFrom (f : TableMeta → TableMeta) (t : TableMeta × Bytes) : TableMeta × Bytes := (f t.1, t.2)

/-- The columns that are scanned of it. -/
def ScanInfo.retable (f : TableMeta → TableMeta) (s : ScanInfo) : ScanInfo :=
  { s with table := f s.table }

/-! ## Below -/

section

variable (hschema : ∀ m, (f m).schema = m.schema)

include hschema

theorem needFirst_retable (t : TableMeta × Bytes) (needed : List (Bytes × Bytes)) :
    needFirst (retableFrom f t) needed = needFirst t needed := by
  unfold needFirst retableFrom
  rw [hschema]

theorem scanInfo_retable (needed : List (Bytes × Bytes)) (t : TableMeta × Bytes) :
    scanInfo needed (retableFrom f t) = (scanInfo needed t).map (ScanInfo.retable f) := by
  have hindex : needIndex (retableFrom f t).1 = needIndex t.1 := by
    funext name
    rw [needIndex, needIndex, retableFrom, hschema]
  unfold scanInfo
  rw [hindex, retableFrom]
  cases (neededOf needed t.2).mapM (needIndex t.1) with
  | error e => rfl
  | ok idxs =>
    simp only [Except.ok_bind, hschema]
    cases (idxs.mergeSort fun a b => decide (a ≤ b)).mapM t.1.schema.getColumn <;> rfl

theorem scanOp_retable (s : ScanInfo) :
    scanOp (s.retable f) = (scanOp s).map (ColumnScan.retable f) := by
  unfold scanOp ColumnScan.create ScanInfo.retable
  rw [hschema]
  cases s.colIndices.mapM s.table.schema.getColumn <;> rfl

theorem zoneOf_retable (s : ScanInfo) (c : Expr) : zoneOf (s.retable f) c = zoneOf s c := by
  have hindex : needIndex (s.retable f).table = needIndex s.table := by
    funext name
    rw [needIndex, needIndex, ScanInfo.retable, hschema]
  have hcolumns : (s.retable f).table.schema = s.table.schema := hschema s.table
  unfold zoneOf
  rw [hindex, hcolumns]
  rfl

theorem findZone_retable (s : ScanInfo) (cs : List Expr) :
    findZone (s.retable f) cs = findZone s cs := by
  induction cs with
  | nil => rfl
  | cons c cs ih => rw [findZone, findZone, zoneOf_retable hschema, ih]

end

theorem residual_retable (root : Plan) (conjuncts : List Expr) :
    residual (root.retable f) names types conjuncts =
      (residual root names types conjuncts).map (Plan.retable f) := by
  unfold residual
  cases bindConjuncts names types none conjuncts with
  | error e => rfl
  | ok pred => cases pred <;> rfl

theorem joinPlan_retable (s₀ s₁ : ScanInfo) (op₀ op₁ : ColumnScan)
    (sides : (Bytes × Bytes) × (Bytes × Bytes)) :
    joinPlan (s₀.retable f) (s₁.retable f) (op₀.retable f) (op₁.retable f) sides =
      (joinPlan s₀ s₁ op₀ op₁ sides).map (Plan.retable f) := by
  have hpos : ∀ (s : ScanInfo) name, (s.retable f).scanPosAt name = s.scanPosAt name := fun _ _ => rfl
  have halias : ∀ s : ScanInfo, (s.retable f).alias = s.alias := fun _ => rfl
  unfold joinPlan
  dsimp only
  rw [halias, halias]
  cases sides.1.1 == s₁.alias || sides.2.1 == s₀.alias with
  | false =>
    simp only [Bool.false_eq_true, if_false, halias, hpos, Except.map_bind]
    rfl
  | true =>
    simp only [if_true, halias, hpos, Except.map_bind]
    rfl

/-! ## Above -/

theorem aggregatePlan_retable (root : Plan) :
    aggregatePlan stmt (root.retable f) names types =
      (aggregatePlan stmt root names types).map (Plan.retable f) := by
  unfold aggregatePlan
  rw [Except.map_bind]
  refine bind_congr fun groups => ?_
  rw [Except.map_bind]
  refine bind_congr fun specs => ?_
  dsimp only
  -- with or without a filter, a select list and maybe a sort are above
  cases stmt.having with
  | none =>
    simp only [Except.pure_eq_ok, Except.ok_bind, Except.map_bind]
    refine bind_congr fun items => ?_
    cases stmt.orderBy with
    | none => rfl
    | some ob =>
      simp only [Except.map_bind]
      rfl
  | some e =>
    simp only [Except.pure_eq_ok, Except.ok_bind, Except.map_bind]
    refine bind_congr fun pred => ?_
    refine bind_congr fun items => ?_
    cases stmt.orderBy with
    | none => rfl
    | some ob =>
      simp only [Except.map_bind]
      rfl

theorem projectionPlan_retable (root : Plan) :
    projectionPlan stmt (root.retable f) single names =
      (projectionPlan stmt root single names).map (Plan.retable f) := by
  unfold projectionPlan
  cases projectionItems stmt single names with
  | error e => rfl
  | ok items =>
    simp only [Except.ok_bind]
    split
    · rfl
    · split
      · rfl
      · rename_i ob _ _ _
        cases resolve names [] ob.outputName <;> rfl

theorem upperPlan_retable (root : Plan) :
    upperPlan stmt (root.retable f) single names types =
      (upperPlan stmt root single names types).map (Plan.retable f) := by
  unfold upperPlan
  rw [aggregatePlan_retable, projectionPlan_retable]
  dsimp only
  split
  · cases aggregatePlan stmt root names types with
    | error e => rfl
    | ok upper => cases stmt.limit <;> rfl
  · cases projectionPlan stmt root single names with
    | error e => rfl
    | ok upper => cases stmt.limit <;> rfl

/-! ## The whole -/

theorem planSingle_retable (hschema : ∀ m, (f m).schema = m.schema) (needed : List (Bytes × Bytes))
    (t : TableMeta × Bytes) : planSingle stmt needed (retableFrom f t) =
      (planSingle stmt needed t).map (Plan.retable f) := by
  unfold planSingle
  rw [needFirst_retable hschema, Except.map_bind]
  refine bind_congr fun needed => ?_
  rw [scanInfo_retable hschema, Except.map_bind]
  cases scanInfo needed t with
  | error e => rfl
  | ok s =>
    simp only [Except.map, Except.ok_bind]
    rw [scanOp_retable hschema]
    cases scanOp s with
    | error e => rfl
    | ok scan =>
      simp only [Except.map, Except.ok_bind, findZone_retable hschema]
      cases findZone s (conjunctsOf stmt) with
      | error e => rfl
      | ok zone =>
        have hscan : Plan.scan { scan.retable f with zone } =
            (Plan.scan { scan with zone }).retable f := rfl
        simp only [Except.ok_bind]
        rw [hscan]
        show (residual (.retable f _) scan.outputNames scan.outputTypes _ >>= fun root =>
          upperPlan stmt root true scan.outputNames scan.outputTypes) = _
        rw [residual_retable]
        cases residual (.scan { scan with zone }) scan.outputNames scan.outputTypes
            (conjunctsOf stmt) with
        | error e => rfl
        | ok root => exact upperPlan_retable root

/-! ### References -/

private theorem owningAlias_retable (hschema : ∀ m, (f m).schema = m.schema)
    (scans : List (TableMeta × Bytes)) (col : Bytes) :
    owningAlias (scans.map (retableFrom f)) col = owningAlias scans col := by
  unfold owningAlias
  rw [List.foldlM_map]
  simp only [retableFrom, hschema]

private theorem addRef_retable (hschema : ∀ m, (f m).schema = m.schema)
    (scans : List (TableMeta × Bytes)) : addRef (scans.map (retableFrom f)) = addRef scans := by
  funext needed ref
  rw [addRef, addRef, owningAlias_retable hschema]

private theorem addRefs_retable (hschema : ∀ m, (f m).schema = m.schema)
    (scans : List (TableMeta × Bytes)) : addRefs (scans.map (retableFrom f)) = addRefs scans := by
  funext refs needed
  rw [addRefs, addRefs, addRef_retable hschema]

theorem neededColumns_retable (hschema : ∀ m, (f m).schema = m.schema)
    (scans : List (TableMeta × Bytes)) :
    neededColumns (scans.map (retableFrom f)) stmt = neededColumns scans stmt := by
  have hselect : selectRefs (scans.map (retableFrom f)) stmt = selectRefs scans stmt := by
    unfold selectRefs
    rw [List.flatMap_map]
    simp only [retableFrom, hschema]
  unfold neededColumns
  rw [addRefs_retable hschema, hselect]

theorem addOrderColumn_retable (hschema : ∀ m, (f m).schema = m.schema)
    (scans : List (TableMeta × Bytes)) (needed : List (Bytes × Bytes)) :
    addOrderColumn (scans.map (retableFrom f)) stmt needed = addOrderColumn scans stmt needed := by
  unfold addOrderColumn
  rw [addRef_retable hschema]

/-! ### Plans -/

/-- The plan of a join, once it is known which columns are scanned. -/
private def joinScans (stmt : SelectStmt) (at_ : Nat) (sides : (Bytes × Bytes) × (Bytes × Bytes))
    (s₀ s₁ : ScanInfo) : Except Exc Plan := do
  let op₀ ← scanOp s₀
  let op₁ ← scanOp s₁
  let join ← joinPlan s₀ s₁ op₀ op₁ sides
  let root ← residual join (op₀.outputNames ++ op₁.outputNames) (op₀.outputTypes ++ op₁.outputTypes)
    ((conjunctsOf stmt).eraseIdx at_)
  upperPlan stmt root false (op₀.outputNames ++ op₁.outputNames) (op₀.outputTypes ++ op₁.outputTypes)

private theorem joinScans_retable (hschema : ∀ m, (f m).schema = m.schema) (at_ : Nat)
    (sides : (Bytes × Bytes) × (Bytes × Bytes)) (s₀ s₁ : ScanInfo) :
    joinScans stmt at_ sides (s₀.retable f) (s₁.retable f) =
      (joinScans stmt at_ sides s₀ s₁).map (Plan.retable f) := by
  unfold joinScans
  rw [scanOp_retable hschema, scanOp_retable hschema]
  cases scanOp s₀ with
  | error e => rfl
  | ok op₀ =>
    cases scanOp s₁ with
    | error e => rfl
    | ok op₁ =>
      simp only [Except.map, Except.ok_bind]
      rw [joinPlan_retable]
      cases joinPlan s₀ s₁ op₀ op₁ sides with
      | error e => rfl
      | ok join =>
        simp only [Except.map, Except.ok_bind]
        rw [residual_retable]
        show ((residual join (op₀.outputNames ++ op₁.outputNames) (op₀.outputTypes ++ op₁.outputTypes)
          ((conjunctsOf stmt).eraseIdx at_)).map (Plan.retable f) >>= fun root => upperPlan stmt root
            false (op₀.outputNames ++ op₁.outputNames) (op₀.outputTypes ++ op₁.outputTypes)) = _
        cases residual join (op₀.outputNames ++ op₁.outputNames) (op₀.outputTypes ++ op₁.outputTypes)
            ((conjunctsOf stmt).eraseIdx at_) with
        | error e => rfl
        | ok root => exact upperPlan_retable root

theorem planJoin_retable (hschema : ∀ m, (f m).schema = m.schema)
    (scans : List (TableMeta × Bytes)) (needed : List (Bytes × Bytes)) (t₀ t₁ : TableMeta × Bytes) :
    planJoin stmt (scans.map (retableFrom f)) needed (retableFrom f t₀) (retableFrom f t₁) =
      (planJoin stmt scans needed t₀ t₁).map (Plan.retable f) := by
  unfold planJoin
  cases findJoinPred (conjunctsOf stmt) with
  | none => rfl
  | some pred =>
    dsimp only
    rw [addRefs_retable hschema]
    cases addRefs scans [pred.2.1, pred.2.2] needed with
    | error e => rfl
    | ok needed₀ =>
      simp only [Except.ok_bind, needFirst_retable hschema, scanInfo_retable hschema]
      cases needFirst t₀ needed₀ with
      | error e => rfl
      | ok needed₁ =>
        simp only [Except.ok_bind]
        cases scanInfo needed₁ t₀ with
        | error e => rfl
        | ok s₀ =>
          simp only [Except.map, Except.ok_bind]
          cases needFirst t₁ needed₁ with
          | error e => rfl
          | ok needed₂ =>
            simp only [Except.ok_bind]
            cases scanInfo needed₂ t₁ with
            | error e => rfl
            | ok s₁ => exact joinScans_retable hschema pred.1 pred.2 s₀ s₁

/-- A catalog with other row groups gives the same plans on these. -/
theorem planSelect_retable {c c' : Catalog} (hschema : ∀ m, (f m).schema = m.schema)
    (hcatalog : ∀ n, c'.getTable n = (c.getTable n).map f) :
    planSelect stmt c' = (planSelect stmt c).map (Plan.retable f) := by
  have hfrom : fromTables c' stmt.tables =
      (fromTables c stmt.tables).map (List.map (retableFrom f)) := by
    unfold fromTables
    induction stmt.tables with
    | nil => rfl
    | cons tr tables ih =>
      rw [List.mapM_cons, List.mapM_cons, ih, hcatalog]
      cases c.getTable tr.name with
      | none => rfl
      | some m =>
        simp only [Option.map_some, Except.ok_bind, Except.map_bind]
        generalize (List.mapM _ tables : Except Exc (List (TableMeta × Bytes))) = rest
        cases rest with
        | error e => rfl
        | ok rest => rfl
  unfold planSelect
  dsimp only
  by_cases hnone : stmt.tables = []
  · rw [if_pos hnone, if_pos hnone]
    rfl
  · rw [if_neg hnone, if_neg hnone]
    by_cases hmany : 2 < stmt.tables.length
    · rw [if_pos hmany, if_pos hmany]
      rfl
    · rw [if_neg hmany, if_neg hmany, hfrom]
      cases fromTables c stmt.tables with
      | error e => rfl
      | ok scans =>
        simp only [Except.map, Except.ok_bind, neededColumns_retable hschema]
        cases neededColumns scans stmt with
        | error e => rfl
        | ok needed =>
          simp only [Except.ok_bind, addOrderColumn_retable hschema]
          match scans with
          | [] => rfl
          | [t] => exact planSingle_retable hschema _ t
          | [t₀, t₁] => exact planJoin_retable hschema [t₀, t₁] _ t₀ t₁
          | _ :: _ :: _ :: _ => rfl

end Planner

end LiteOLAP
