import LiteOLAP.Native.Planner
import LiteOLAP.ForStd.List

/-!
# The shape of a plan

What each function of the planner has done when it returns a plan, said once: the proofs about plans
cite these lemmas and unfold no function of the planner.

## Key results

- `Planner.planSelect_cases`: one table or two
- `Planner.planSingle_cases`, `Planner.planJoin_cases`: what is under the operators of `upperPlan`
- `Planner.aggregatePlan_cases`, `Planner.projectionPlan_cases`: these operators
- `Planner.planSelect_aggregation`: what an aggregation has been bound to
-/

namespace LiteOLAP

namespace Planner

variable {stmt : SelectStmt} {c : Catalog} {p root : Plan} {names : List Bytes}
  {types : List ColumnType} {single : Bool}

/-! ## Below -/

/-- The residual filter, if there are conjuncts left. -/
theorem residual_cases {conjuncts : List Expr} (h : residual root names types conjuncts = .ok p) :
    (bindConjuncts names types none conjuncts = .ok none ∧ p = root) ∨
      ∃ pred, bindConjuncts names types none conjuncts = .ok (some pred) ∧ p = .filter root pred := by
  obtain ⟨pred, hpred, h⟩ := Except.bind_eq_ok.mp h
  cases pred with
  | none => exact .inl ⟨hpred, (Except.ok.inj h).symm⟩
  | some pred => exact .inr ⟨pred, hpred, (Except.ok.inj h).symm⟩

/-- The inputs of the join, and where each has its key. -/
theorem joinPlan_cases {s₀ s₁ : ScanInfo} {op₀ op₁ : ColumnScan}
    {sides : (Bytes × Bytes) × (Bytes × Bytes)} (h : joinPlan s₀ s₁ op₀ op₁ sides = .ok p) :
    ∃ leftKey rightKey, p = .hashJoin (.scan op₀) (.scan op₁) leftKey rightKey ∨
      p = .hashJoin (.scan op₁) (.scan op₀) leftKey rightKey := by
  unfold joinPlan at h
  dsimp only at h
  -- whichever scan is the left one
  split at h
  all_goals
    split at h
    all_goals
      obtain ⟨leftKey, -, h⟩ := Except.bind_eq_ok.mp h
      obtain ⟨rightKey, -, h⟩ := Except.bind_eq_ok.mp h
      exact ⟨leftKey, rightKey, by simp [← Except.ok.inj h]⟩

/-! ## Above -/

/-- An item of the select list of a grouped query, under its name. -/
def namedItem (outNames : List Bytes) (item : SelectItem) : Except Exc (Nat × Bytes) := do
  let (idx, name) ← aggItem outNames item
  return (idx, itemName item name)

/-- The names and the types of what an aggregation returns. -/
def aggregateNames (groups : List (Nat × Bytes × ColumnType)) (specs : List AggSpec) : List Bytes :=
  (groups.map fun g => g.2.1) ++ specs.map (·.outputName)

def aggregateTypes (groups : List (Nat × Bytes × ColumnType)) (specs : List AggSpec) :
    List ColumnType :=
  (groups.map fun g => g.2.2) ++ specs.map (·.outputType)

/-- The aggregation of a grouped query. -/
def aggregateOf (root : Plan) (groups : List (Nat × Bytes × ColumnType)) (specs : List AggSpec) :
    Plan :=
  .hashAggregate root (groups.map Prod.fst) (groups.map fun g => g.2.1) (groups.map fun g => g.2.2)
    specs

/-- A grouped query: the aggregation, under the filter of `HAVING` if there is one, under the
    select list, under the sort if there is one. -/
theorem aggregatePlan_cases (h : aggregatePlan stmt root names types = .ok p) :
    ∃ groups specs grouped items, groupColumns names types stmt = .ok groups ∧
      aggSpecs names types stmt = .ok specs ∧
      ((stmt.having = none ∧ grouped = aggregateOf root groups specs) ∨
        ∃ e pred, stmt.having = some e ∧
          bind (aggregateNames groups specs) (aggregateTypes groups specs) e = .ok pred ∧
          grouped = .filter (aggregateOf root groups specs) pred) ∧
      stmt.items.mapM (namedItem (aggregateNames groups specs)) = .ok items ∧
      ((stmt.orderBy = none ∧ p = .projection grouped (items.map Prod.fst) (items.map Prod.snd)) ∨
        ∃ ob idx, stmt.orderBy = some ob ∧ resolve (items.map Prod.snd) [] ob.outputName = .ok idx ∧
          p = .orderBy (.projection grouped (items.map Prod.fst) (items.map Prod.snd)) idx
            ob.descending) := by
  obtain ⟨groups, hgroups, h⟩ := Except.bind_eq_ok.mp h
  obtain ⟨specs, hspecs, h⟩ := Except.bind_eq_ok.mp h
  dsimp only at h
  split at h
  · -- the groups are filtered
    rename_i e he
    obtain ⟨pred, hpred, h⟩ := Except.bind_eq_ok.mp h
    obtain ⟨grouped, hgrouped, h⟩ := Except.bind_eq_ok.mp h
    obtain ⟨items, hitems, h⟩ := Except.bind_eq_ok.mp h
    obtain rfl := Except.ok.inj hgrouped
    refine ⟨groups, specs, _, items, hgroups, hspecs, .inr ⟨e, pred, he, hpred, rfl⟩, hitems, ?_⟩
    split at h
    · rename_i ob hob
      obtain ⟨idx, hidx, h⟩ := Except.bind_eq_ok.mp h
      exact .inr ⟨ob, idx, hob, hidx, (Except.ok.inj h).symm⟩
    · rename_i hob
      exact .inl ⟨hob, (Except.ok.inj h).symm⟩
  · -- and here they are not
    rename_i he
    obtain ⟨grouped, hgrouped, h⟩ := Except.bind_eq_ok.mp h
    obtain ⟨items, hitems, h⟩ := Except.bind_eq_ok.mp h
    obtain rfl := Except.ok.inj hgrouped
    refine ⟨groups, specs, _, items, hgroups, hspecs, .inl ⟨he, rfl⟩, hitems, ?_⟩
    split at h
    · rename_i ob hob
      obtain ⟨idx, hidx, h⟩ := Except.bind_eq_ok.mp h
      exact .inr ⟨ob, idx, hob, hidx, (Except.ok.inj h).symm⟩
    · rename_i hob
      exact .inl ⟨hob, (Except.ok.inj h).symm⟩

/-- A plain query: the select list, sorted above or below it if at all. -/
theorem projectionPlan_cases (h : projectionPlan stmt root single names = .ok p) :
    ∃ items, projectionItems stmt single names = .ok items ∧
      ((stmt.orderBy = none ∧ p = .projection root (items.map Prod.fst) (items.map Prod.snd)) ∨
        (∃ ob idx, stmt.orderBy = some ob ∧
          lastIndexOf (items.map Prod.snd) ob.outputName = some idx ∧
          p = .orderBy (.projection root (items.map Prod.fst) (items.map Prod.snd)) idx
            ob.descending) ∨
        ∃ ob idx, stmt.orderBy = some ob ∧
          lastIndexOf (items.map Prod.snd) ob.outputName = none ∧
          resolve names [] ob.outputName = .ok idx ∧
          p = .projection (.orderBy root idx ob.descending) (items.map Prod.fst)
            (items.map Prod.snd)) := by
  obtain ⟨items, hitems, h⟩ := Except.bind_eq_ok.mp h
  dsimp only at h
  refine ⟨items, hitems, ?_⟩
  split at h
  · rename_i hob
    exact .inl ⟨hob, (Except.ok.inj h).symm⟩
  · rename_i ob hob
    split at h
    · rename_i idx hidx
      exact .inr (.inl ⟨ob, idx, hob, hidx, (Except.ok.inj h).symm⟩)
    · rename_i hlast
      obtain ⟨idx, hidx, h⟩ := Except.bind_eq_ok.mp h
      exact .inr (.inr ⟨ob, idx, hob, hlast, hidx, (Except.ok.inj h).symm⟩)

/-- `LIMIT`, if there is one. -/
private def limited (stmt : SelectStmt) (upper : Plan) : Except Exc Plan :=
  match stmt.limit with
  | some n => .ok (.limit upper n)
  | none => .ok upper

/-- The plan of the select list, under the limit if there is one. -/
theorem upperPlan_cases (h : upperPlan stmt root single names types = .ok p) :
    ∃ upper, (if aggregated stmt then aggregatePlan stmt root names types
        else projectionPlan stmt root single names) = .ok upper ∧
      ((stmt.limit = none ∧ p = upper) ∨ ∃ n, stmt.limit = some n ∧ p = .limit upper n) := by
  have hupper : ∃ upper, (if aggregated stmt then aggregatePlan stmt root names types
      else projectionPlan stmt root single names) = .ok upper ∧
      limited stmt upper = .ok p := by
    unfold upperPlan at h
    dsimp only at h
    split at h
    · rename_i hagg
      rw [if_pos hagg]
      exact Except.bind_eq_ok.mp h
    · rename_i hagg
      rw [if_neg hagg]
      exact Except.bind_eq_ok.mp h
  obtain ⟨upper, hrun, h⟩ := hupper
  refine ⟨upper, hrun, ?_⟩
  unfold limited at h
  split at h
  · rename_i n hn
    exact .inr ⟨n, hn, (Except.ok.inj h).symm⟩
  · rename_i hn
    exact .inl ⟨hn, (Except.ok.inj h).symm⟩

/-! ## The whole -/

/-- A query on one table. -/
theorem planSingle_cases {needed : List (Bytes × Bytes)} {t : TableMeta × Bytes}
    (h : planSingle stmt needed t = .ok p) :
    ∃ needed' s scan zone root, needFirst t needed = .ok needed' ∧ scanInfo needed' t = .ok s ∧
      scanOp s = .ok scan ∧ findZone s (conjunctsOf stmt) = .ok zone ∧
      residual (.scan { scan with zone }) scan.outputNames scan.outputTypes (conjunctsOf stmt) =
        .ok root ∧
      upperPlan stmt root true scan.outputNames scan.outputTypes = .ok p := by
  obtain ⟨needed', hneeded, h⟩ := Except.bind_eq_ok.mp h
  obtain ⟨s, hs, h⟩ := Except.bind_eq_ok.mp h
  obtain ⟨scan, hscan, h⟩ := Except.bind_eq_ok.mp h
  obtain ⟨zone, hzone, h⟩ := Except.bind_eq_ok.mp h
  obtain ⟨root, hroot, h⟩ := Except.bind_eq_ok.mp h
  exact ⟨needed', s, scan, zone, root, hneeded, hs, hscan, hzone, hroot, h⟩

/-- A query on two tables. -/
theorem planJoin_cases {scans : List (TableMeta × Bytes)} {needed : List (Bytes × Bytes)}
    {t₀ t₁ : TableMeta × Bytes} (h : planJoin stmt scans needed t₀ t₁ = .ok p) :
    ∃ at_ sides needed₀ needed₁ needed₂ s₀ s₁ op₀ op₁ join root,
      findJoinPred (conjunctsOf stmt) = some (at_, sides) ∧
      addRefs scans [sides.1, sides.2] needed = .ok needed₀ ∧
      needFirst t₀ needed₀ = .ok needed₁ ∧ scanInfo needed₁ t₀ = .ok s₀ ∧
      needFirst t₁ needed₁ = .ok needed₂ ∧ scanInfo needed₂ t₁ = .ok s₁ ∧
      scanOp s₀ = .ok op₀ ∧ scanOp s₁ = .ok op₁ ∧
      joinPlan s₀ s₁ op₀ op₁ sides = .ok join ∧
      residual join (op₀.outputNames ++ op₁.outputNames) (op₀.outputTypes ++ op₁.outputTypes)
        ((conjunctsOf stmt).eraseIdx at_) = .ok root ∧
      upperPlan stmt root false (op₀.outputNames ++ op₁.outputNames)
        (op₀.outputTypes ++ op₁.outputTypes) = .ok p := by
  unfold planJoin at h
  split at h
  · cases h
  · rename_i at_ sides hpred
    obtain ⟨needed₀, h₀, h⟩ := Except.bind_eq_ok.mp h
    obtain ⟨needed₁, h₁, h⟩ := Except.bind_eq_ok.mp h
    obtain ⟨s₀, hs₀, h⟩ := Except.bind_eq_ok.mp h
    obtain ⟨needed₂, h₂, h⟩ := Except.bind_eq_ok.mp h
    obtain ⟨s₁, hs₁, h⟩ := Except.bind_eq_ok.mp h
    obtain ⟨op₀, hop₀, h⟩ := Except.bind_eq_ok.mp h
    obtain ⟨op₁, hop₁, h⟩ := Except.bind_eq_ok.mp h
    obtain ⟨join, hjoin, h⟩ := Except.bind_eq_ok.mp h
    obtain ⟨root, hroot, h⟩ := Except.bind_eq_ok.mp h
    exact ⟨at_, sides, needed₀, needed₁, needed₂, s₀, s₁, op₀, op₁, join, root, hpred, h₀, h₁, hs₀,
      h₂, hs₁, hop₀, hop₁, hjoin, hroot, h⟩

/-- A query on one table or on two. -/
theorem planSelect_cases (h : planSelect stmt c = .ok p) :
    ∃ scans needed, fromTables c stmt.tables = .ok scans ∧ neededColumns scans stmt = .ok needed ∧
      ((∃ t, scans = [t] ∧ planSingle stmt (addOrderColumn scans stmt needed) t = .ok p) ∨
        ∃ t₀ t₁, scans = [t₀, t₁] ∧
          planJoin stmt scans (addOrderColumn scans stmt needed) t₀ t₁ = .ok p) := by
  unfold planSelect at h
  dsimp only at h
  split at h
  · cases h
  · split at h
    · cases h
    · obtain ⟨scans, hscans, h⟩ := Except.bind_eq_ok.mp h
      obtain ⟨needed, hneeded, h⟩ := Except.bind_eq_ok.mp h
      refine ⟨scans, needed, hscans, hneeded, ?_⟩
      split at h
      · exact .inl ⟨_, rfl, h⟩
      · exact .inr ⟨_, _, rfl, h⟩
      · cases h

/-! ## From the pieces -/

/-- A scan whose columns come out in the order of the table. -/
theorem scanInfo_of_sorted {needed : List (Bytes × Bytes)} {t : TableMeta × Bytes} (idxs : List Nat)
    {cols : List Column} (hidxs : (neededOf needed t.2).mapM (needIndex t.1) = .ok idxs)
    (hsorted : idxs.Pairwise (· ≤ ·)) (hcols : idxs.mapM t.1.schema.getColumn = .ok cols) :
    scanInfo needed t = .ok ⟨t.1, t.2, idxs, cols.map (·.name)⟩ := by
  have hsort : idxs.mergeSort (fun a b => decide (a ≤ b)) = idxs :=
    List.mergeSort_of_pairwise (hsorted.imp fun h => by simpa using h)
  rw [scanInfo, hidxs, Except.ok_bind, hsort]
  dsimp only
  rw [hcols]
  rfl

/-- A query on one table, planned step by step. -/
theorem planSingle_of {needed needed' : List (Bytes × Bytes)} {t : TableMeta × Bytes} {s : ScanInfo}
    {scan : ColumnScan} {zone : Option ZoneFilter} (hneeded : needFirst t needed = .ok needed')
    (hs : scanInfo needed' t = .ok s) (hscan : scanOp s = .ok scan)
    (hzone : findZone s (conjunctsOf stmt) = .ok zone)
    (hroot : residual (.scan { scan with zone }) scan.outputNames scan.outputTypes
      (conjunctsOf stmt) = .ok root)
    (hp : upperPlan stmt root true scan.outputNames scan.outputTypes = .ok p) :
    planSingle stmt needed t = .ok p := by
  rw [planSingle, hneeded, Except.ok_bind, hs, Except.ok_bind, hscan, Except.ok_bind, hzone,
    Except.ok_bind]
  dsimp only
  rw [hroot, Except.ok_bind, hp]

/-! ## Names -/

/-- A name stands for a position in the list. -/
theorem resolve_lt {a col : Bytes} {i : Nat} (h : resolve names a col = .ok i) :
    i < names.length := by
  unfold resolve at h
  dsimp only at h
  split at h
  · split at h
    · rename_i j hj
      obtain rfl := Except.ok.inj h
      exact (List.findIdx?_eq_some_iff_getElem.mp hj).1
    · cases h
  · split at h
    · cases h
    · rename_i j hj
      obtain rfl := Except.ok.inj h
      have hmem : j ∈ (List.range names.length).filter fun i => matchesBare col (names.getD i []) := by
        rw [hj]
        exact List.mem_singleton_self j
      exact List.mem_range.mp (List.mem_filter.mp hmem).1
    · cases h

/-- The groups are among the columns. -/
theorem groupColumns_lt {groups : List (Nat × Bytes × ColumnType)}
    (h : groupColumns names types stmt = .ok groups) : ∀ i ∈ groups.map Prod.fst, i < names.length := by
  intro i hi
  obtain ⟨g, hg, rfl⟩ := List.mem_map.mp hi
  obtain ⟨k, hk, rfl⟩ := List.getElem_of_mem hg
  have hlen : k < stmt.groupBy.length := by
    rwa [← List.length_of_mapM_eq_ok h]
  obtain ⟨g, hg, hget⟩ := List.getElem?_of_mapM_eq_ok h (List.getElem?_eq_getElem hlen)
  rw [List.getElem?_eq_getElem hk] at hget
  obtain ⟨idx, hidx, hg⟩ := Except.bind_eq_ok.mp hg
  rw [Option.some.inj hget, ← Except.ok.inj hg]
  exact resolve_lt hidx

/-! ## Aggregations -/

/-- The input of a plan's aggregation, its group columns and its aggregates. -/
def aggregation : Plan → Option (Plan × List Nat × List AggSpec)
  | .hashAggregate child groupIndices _ _ aggs => some (child, groupIndices, aggs)
  | .filter child _ => aggregation child
  | .projection child _ _ => aggregation child
  | .orderBy child _ _ => aggregation child
  | .limit child _ => aggregation child
  | .scan _ | .hashJoin _ _ _ _ => none

/-- A scan has a name and a type for every column. -/
theorem scanOp_length {s : ScanInfo} {scan : ColumnScan} (h : scanOp s = .ok scan) :
    scan.outputNames.length = scan.outputTypes.length := by
  obtain ⟨cols, -, h⟩ := Except.bind_eq_ok.mp h
  rw [← Except.ok.inj h]
  simp

/-- A filter has the columns of its input. -/
theorem residual_types {conjuncts : List Expr} (h : residual root names types conjuncts = .ok p) :
    p.outputTypes = root.outputTypes := by
  rcases residual_cases h with ⟨-, rfl⟩ | ⟨pred, -, rfl⟩ <;> rfl

/-- Below `upperPlan` there is no aggregation. -/
theorem residual_aggregation {conjuncts : List Expr}
    (h : residual root names types conjuncts = .ok p) : aggregation p = aggregation root := by
  rcases residual_cases h with ⟨-, rfl⟩ | ⟨pred, -, rfl⟩ <;> rfl

private theorem upperPlan_aggregation (h : upperPlan stmt root single names types = .ok p)
    (hroot : aggregation root = none) {child : Plan} {idxs : List Nat} {specs : List AggSpec}
    (hagg : aggregation p = some (child, idxs, specs)) :
    child = root ∧ aggregated stmt = true ∧ ∃ groups, groupColumns names types stmt = .ok groups ∧
      aggSpecs names types stmt = .ok specs ∧ idxs = groups.map Prod.fst := by
  obtain ⟨upper, hupper, hp⟩ := upperPlan_cases h
  have hupperagg : aggregation upper = some (child, idxs, specs) := by
    rcases hp with ⟨-, rfl⟩ | ⟨n, -, rfl⟩ <;> exact hagg
  split at hupper
  · rename_i haggregated
    obtain ⟨groups, specs', grouped, items, hgroups, hspecs, hhaving, -, horder⟩ :=
      aggregatePlan_cases hupper
    have hgrouped : aggregation upper = aggregation grouped := by
      rcases horder with ⟨-, rfl⟩ | ⟨ob, idx, -, -, rfl⟩ <;> rfl
    have hof : aggregation grouped = aggregation (aggregateOf root groups specs') := by
      rcases hhaving with ⟨-, rfl⟩ | ⟨e, pred, -, -, rfl⟩ <;> rfl
    rw [hgrouped, hof] at hupperagg
    obtain ⟨rfl, hrest⟩ := Prod.mk.inj (Option.some.inj hupperagg)
    obtain ⟨rfl, rfl⟩ := Prod.mk.inj hrest
    exact ⟨rfl, haggregated, groups, hgroups, hspecs, rfl⟩
  · obtain ⟨items, -, hcases⟩ := projectionPlan_cases hupper
    have hnone : aggregation upper = aggregation root := by
      rcases hcases with ⟨-, rfl⟩ | ⟨ob, idx, -, -, rfl⟩ | ⟨ob, idx, -, -, -, rfl⟩ <;> rfl
    rw [hnone, hroot] at hupperagg
    cases hupperagg

/-- The aggregation of a planned query has been bound to as many columns as its input has. The names
    and types it was bound to are those of the `FROM` order. -/
theorem planSelect_aggregation (h : planSelect stmt c = .ok p) {child : Plan} {idxs : List Nat}
    {specs : List AggSpec} (hagg : aggregation p = some (child, idxs, specs)) :
    ∃ names types groups, names.length = types.length ∧ child.outputTypes.length = types.length ∧
      groupColumns names types stmt = .ok groups ∧ aggSpecs names types stmt = .ok specs ∧
      idxs = groups.map Prod.fst := by
  obtain ⟨scans, needed, -, -, ⟨t, -, hsingle⟩ | ⟨t₀, t₁, -, hjoin⟩⟩ := planSelect_cases h
  · obtain ⟨_, s, scan, zone, root, -, -, hscan, -, hroot, hupper⟩ := planSingle_cases hsingle
    obtain ⟨rfl, -, groups, hgroups, hspecs, hidxs⟩ :=
      upperPlan_aggregation hupper (residual_aggregation hroot) hagg
    refine ⟨_, _, groups, scanOp_length hscan, ?_, hgroups, hspecs, hidxs⟩
    rw [residual_types hroot]
    rfl
  · obtain ⟨at_, sides, _, _, _, s₀, s₁, op₀, op₁, join, root, -, -, -, -, -, -, hop₀, hop₁, hj, hroot,
      hupper⟩ := planJoin_cases hjoin
    obtain ⟨leftKey, rightKey, hcases⟩ := joinPlan_cases hj
    have hnone : aggregation join = none := by
      rcases hcases with rfl | rfl <;> rfl
    have hlen : join.outputTypes.length = (op₀.outputTypes ++ op₁.outputTypes).length := by
      -- the inputs may be swapped
      rcases hcases with rfl | rfl
      · rfl
      · simp only [Plan.outputTypes, List.length_append]
        omega
    obtain ⟨rfl, -, groups, hgroups, hspecs, hidxs⟩ :=
      upperPlan_aggregation hupper ((residual_aggregation hroot).trans hnone) hagg
    refine ⟨_, _, groups, ?_, ?_, hgroups, hspecs, hidxs⟩
    · rw [List.length_append, List.length_append, scanOp_length hop₀, scanOp_length hop₁]
    · rw [residual_types hroot, hlen]

end Planner

end LiteOLAP
